import ShaderScript.Proofs.Estree.Places
import ShaderScript.Proofs.Glsl.Conditions

/-!
# Texts without braces

The text of an expression has no braces and stays on one line, and it is the same in whatever steps
the lines around it are indented. So are the parts of a statement that stand on one line with it.

* `Plain`: a text without braces and line breaks, with one lemma for each way to build texts.
* `Kind.places`, `Graph.Printable`: what stands where, and programs in which statements stand where
  statements are expected and nowhere else.
* `SameWords`: two printers give a node the same plain text, with **`sameWords_text`**: so do
  printers that indent in different steps, for every expression.
* `SameWords.declaratorText`, `SameWords.initText`, …: so it is for the parts of statements.
-/

namespace ShaderScript

/-! ## Plain texts -/

/-- A text without braces and line breaks. -/
def Plain (text : String) : Prop := ∀ c ∈ text.toList, c ≠ '\x7b' ∧ c ≠ '\x7d' ∧ c ≠ '\n'

instance (text : String) : Decidable (Plain text) := List.decidableBAll _ text.toList

section

variable {s t : String}

@[simp] theorem plain_append : Plain (s ++ t) ↔ Plain s ∧ Plain t := by
  unfold Plain
  simp only [String.toList_append, List.forall_mem_append]

namespace Plain

theorem toString_nat (n : Nat) : Plain (toString n) := by
  intro c hc
  have hmem : c ∈ Nat.toDigits 10 n := by simpa using hc
  have hd := Nat.isDigit_of_mem_toDigits (by decide) (by decide) hmem
  refine ⟨?_, ?_, ?_⟩ <;> rintro rfl <;> cases hd

theorem tyName (t : Ty) : Plain t.name := by
  cases t <;> decide

theorem commaList {texts : List String} (h : ∀ s ∈ texts, Plain s) :
    Plain (Glsl.commaList texts) := by
  unfold Glsl.commaList
  induction texts with
  | nil => decide
  | cons first rest ih =>
    have hfirst := h first List.mem_cons_self
    have hrest := ih fun s hs => h s (List.mem_cons_of_mem _ hs)
    cases rest with
    | nil => simpa using hfirst
    | cons second rest =>
      rw [String.intercalate_cons_cons]
      exact plain_append.mpr ⟨plain_append.mpr ⟨hfirst, by decide⟩, hrest⟩

theorem numberText (h : Plain s) (ty : Option Ty) : Plain (Glsl.numberText s ty) := by
  unfold Glsl.numberText
  split_ifs
  · exact plain_append.mpr ⟨h, by decide⟩
  · exact h

theorem binaryText (op : BinaryOp) (hs : Plain s) (ht : Plain t) :
    Plain (Glsl.binaryText op s t) := by
  have hop : Plain op.glsl := by cases op <;> decide
  unfold Glsl.binaryText
  split <;> simp +decide only [plain_append, hs, ht, hop]

theorem unaryText (op : UnaryOp) (h : Plain s) : Plain (Glsl.unaryText op s) := by
  have hsigned : ∀ sign : Char, Plain sign.toString → Plain (Glsl.signed sign s) := by
    intro sign hsign
    unfold Glsl.signed
    split_ifs <;> simp +decide only [plain_append, h, hsign]
  cases op with
  | plus => exact h
  | neg => exact hsigned '-' (by decide)
  | not => exact hsigned '!' (by decide)

theorem updateText (op : UpdateOp) (leading : Bool) (h : Plain s) :
    Plain (Glsl.updateText op leading s) := by
  have hop : Plain op.glsl := by cases op <;> decide
  unfold Glsl.updateText
  split_ifs <;> simp only [plain_append, h, hop, and_self]

theorem indexText (dimension literal : Option Nat) (hs : Plain s) (ht : Plain t) :
    Plain (Glsl.indexText dimension literal s t) := by
  unfold Glsl.indexText
  split <;> simp +decide only [plain_append, hs, ht, toString_nat]

theorem constructorName (ty : Option Ty) (length : Nat) :
    Plain (Glsl.constructorName ty length) := by
  unfold Glsl.constructorName
  split
  · exact tyName _
  · exact plain_append.mpr ⟨by decide, toString_nat _⟩

theorem afterSpace (h : Plain s) : Plain (Glsl.afterSpace s) := by
  unfold Glsl.afterSpace
  split
  · exact h
  · rename_i rest hrest
    intro c hc
    rw [String.toList_ofList] at hc
    refine h c ((List.dropWhile_sublist (· != ' ')).mem ?_)
    rw [hrest]
    exact List.mem_cons_of_mem _ hc

theorem headerText {texts : List String} (h : ∀ s ∈ texts, Plain s) :
    Plain (Glsl.headerText texts) := by
  cases texts with
  | nil => decide
  | cons first rest =>
    refine commaList fun s hs => ?_
    rcases List.mem_cons.mp hs with rfl | hs
    · exact h s List.mem_cons_self
    · obtain ⟨t, ht, rfl⟩ := List.mem_map.mp hs
      exact (h t (List.mem_cons_of_mem _ ht)).afterSpace

end Plain

end

/-! ## What stands where -/

namespace Estree.Position

/-- Whether a node may stand in a place of a program. In the place of a statement an expression is
printed as one. -/
def takes : Position → Kind → Bool
  | .statement, _ => true
  | .declaration, k =>
    !Glsl.isStatement k || match k with
      | .declarator .. => true
      | _ => false
  | .header, k =>
    !Glsl.isStatement k || match k with
      | .varDecl _ => true
      | _ => false
  | .expression, k => !Glsl.isStatement k

end Estree.Position

open Estree (Position)

/-- The children of a node with the places that they stand in. -/
def Kind.places : Kind → List (Position × Id)
  | .program body | .block body => body.map (.statement, ·)
  | .function name params body => (name :: params).map (.expression, ·) ++ [(.statement, body)]
  | .varDecl ds => ds.map (.declaration, ·)
  | .declarator name init => (name :: init.toList).map (.expression, ·)
  | .exprStmt e => [(.expression, e)]
  | .ifElse test consequent alternate =>
    (.expression, test) :: (consequent :: alternate.toList).map (.statement, ·)
  | .forLoop init test step body =>
    init.toList.map (.header, ·) ++ (test.toList ++ step.toList).map (.expression, ·) ++
      [(.statement, body)]
  | .ret argument => argument.toList.map (.expression, ·)
  | k => k.children.map (.expression, ·)

theorem Kind.places_of_expression {k : Kind} (h : Glsl.isStatement k = false) :
    k.places = k.children.map (.expression, ·) := by
  cases k <;> first | rfl | cases h

theorem Kind.map_snd_places (k : Kind) : k.places.map Prod.snd = k.children := by
  cases k <;> simp [places, children, Function.comp_def]

theorem Kind.mem_children_of_places {k : Kind} {q : Position × Id} (hq : q ∈ k.places) :
    q.2 ∈ k.children := by
  rw [← map_snd_places]
  exact List.mem_map_of_mem hq

namespace Graph

/-- The children of a node may stand where they do, and if the node is a leaf with a spelling of its
own, that is plain. -/
structure WellPlaced (g : Graph) (j : Id) : Prop where
  taken : ∀ q ∈ (g.kind j).places, q.1.takes (g.kind q.2) = true
  spelled : ∀ s ∈ (g.kind j).spelling?, Plain s

theorem wellPlaced_iff {g : Graph} {j : Id} : g.WellPlaced j ↔
    (∀ q ∈ (g.kind j).places, q.1.takes (g.kind q.2) = true) ∧
      ∀ s ∈ (g.kind j).spelling?, Plain s :=
  ⟨fun h => ⟨h.taken, h.spelled⟩, fun h => ⟨h.1, h.2⟩⟩

instance (g : Graph) (j : Id) : Decidable (g.WellPlaced j) := decidable_of_iff _ wellPlaced_iff.symm

/-- Everything in and below a node stands where it may, and is spelled without braces and line
breaks. -/
def Printable (g : Graph) (i : Id) : Prop := ∀ j ∈ g.descendants i, g.WellPlaced j

instance (g : Graph) (i : Id) : Decidable (g.Printable i) := by unfold Printable; infer_instance

variable {g : Graph} (h : g.IsTree) {i c : Id} (hi : i ∈ g.live)

include h hi

theorem Printable.self (hp : g.Printable i) : g.WellPlaced i :=
  hp i ((h.mem_descendants_iff hi).mpr ⟨0, .refl⟩)

theorem Printable.child (hp : g.Printable i) (hc : c ∈ g.children i) : g.Printable c := by
  intro j hj
  obtain ⟨d, hd⟩ := (h.mem_descendants_iff (h.child_live hi hc)).mp hj
  exact hp j ((h.mem_descendants_iff hi).mpr ⟨d + 1, hd.cons hc⟩)

theorem Printable.expression (hp : g.Printable i) (hc : (.expression, c) ∈ (g.kind i).places) :
    Glsl.isStatement (g.kind c) = false := by
  have htaken := (hp.self h hi).taken _ hc
  exact Bool.not_eq_true' _ ▸ htaken

theorem Printable.operand (hp : g.Printable i) (hst : Glsl.isStatement (g.kind i) = false)
    (hc : c ∈ g.children i) : Glsl.isStatement (g.kind c) = false := by
  refine hp.expression h hi ?_
  rw [Kind.places_of_expression hst]
  exact List.mem_map_of_mem hc

end Graph

/-! ## Texts of expressions -/

/-- Two printers give a node the same plain text. -/
def SameWords (e e' : Id → String) (i : Id) : Prop := e' i = e i ∧ Plain (e i)

section Texts

open Graph Glsl

variable {g : Graph} (h : g.IsTree) {i : Id} (hi : i ∈ g.live) (hp : g.Printable i)
  (hst : isStatement (g.kind i) = false)

include h hi hp hst

/-- The text of an expression is plain, whatever is left of the depth. -/
theorem plain_exprAt (indent : String) (n : Nat) : Plain (exprAt g indent n i) := by
  induction n generalizing i with
  | zero => exact (by decide : Plain "")
  | succ n ih =>
    have hspelled := (hp.self h hi).spelled
    have hchild : ∀ c ∈ g.children i, Plain (exprAt g indent n c) := fun c hc =>
      ih (h.child_live hi hc) (hp.child h hi hc) (hp.operand h hi hst hc)
    have hlist : ∀ cs : List Id, (∀ c ∈ cs, c ∈ g.children i) →
        Plain (commaList (cs.map (exprAt g indent n))) := by
      intro cs hcs
      refine Plain.commaList fun s hs => ?_
      obtain ⟨c, hc, rfl⟩ := List.mem_map.mp hs
      exact hchild c (hcs c hc)
    unfold exprAt
    unfold children at hchild hlist
    cases hk : g.kind i with
    | program | function | varDecl | declarator | block | exprStmt | ifElse | forLoop | ret
    | discard =>
      rw [hk] at hst
      cases hst
    | ident name => exact hspelled name (by rw [hk]; rfl)
    | this => exact (by decide : Plain "this")
    | bool value =>
      cases value
      · exact (by decide : Plain "false")
      · exact (by decide : Plain "true")
    | number raw => exact (hspelled raw (by rw [hk]; rfl)).numberText _
    | raw source => exact hspelled source (by rw [hk]; rfl)
    | binary op left right =>
      simp only [hk, Kind.children, List.mem_cons, forall_eq_or_imp] at hchild
      exact hchild.1.binaryText op hchild.2.1
    | assign op left right =>
      simp only [hk, Kind.children, List.mem_cons, forall_eq_or_imp] at hchild
      have hop : Plain op.glsl := by cases op <;> decide
      simp +decide only [plain_append, hchild.1, hchild.2.1, hop]
    | unary op argument =>
      simp only [hk, Kind.children, List.mem_cons, forall_eq_or_imp] at hchild
      exact hchild.1.unaryText op
    | update op leading argument =>
      simp only [hk, Kind.children, List.mem_cons, forall_eq_or_imp] at hchild
      exact hchild.1.updateText op leading
    | conditional test consequent alternate =>
      simp only [hk, Kind.children, List.mem_cons, forall_eq_or_imp] at hchild
      simp +decide only [plain_append, hchild.1, hchild.2.1, hchild.2.2.1]
    | call callee args =>
      rw [hk] at hchild hlist
      have hargs := hlist args fun c hc => List.mem_cons_of_mem _ hc
      simp +decide only [plain_append, hchild callee List.mem_cons_self, hargs]
    | field object property =>
      simp only [hk, Kind.children, List.mem_cons, forall_eq_or_imp] at hchild
      simp +decide only [plain_append, hchild.1, hchild.2.1]
    | index object property =>
      simp only [hk, Kind.children, List.mem_cons, forall_eq_or_imp] at hchild
      exact hchild.1.indexText _ _ hchild.2.1
    | array elements =>
      rw [hk] at hlist
      have helements := hlist elements fun c hc => hc
      simp +decide only [plain_append, Plain.constructorName, helements]
    | sequence exprs =>
      rw [hk] at hchild hlist
      have hall : Plain ("(" ++ commaList (exprs.map (exprAt g indent n)) ++ ")") := by
        simp +decide only [plain_append, hlist exprs fun c hc => hc]
      obtain _ | ⟨a, _ | ⟨b, rest⟩⟩ := exprs
      · exact hall
      · exact hchild a List.mem_cons_self
      · exact hall

theorem exprAt_indent (indent indent' : String) (n : Nat) :
    exprAt g indent' n i = exprAt g indent n i := by
  induction n generalizing i with
  | zero => rfl
  | succ n ih =>
    refine (Copy.refl g : Copy True id g g).exprStep indent hst fun c hc => ?_
    exact ih (h.child_live hi hc) (hp.child h hi hc) (hp.operand h hi hst hc)

/-- **Indenting in other steps changes nothing about the text of an expression**, and the text is
plain. -/
theorem sameWords_text (indent : String) : SameWords (g.textOf "") (g.textOf indent) i :=
  ⟨exprAt_indent h hi hp hst "" indent _, plain_exprAt h hi hp hst "" _⟩

end Texts

/-! ## Parts of statements -/

section Parts

open Graph Glsl

variable {g : Graph} (h : g.IsTree) (indent : String) {i : Id} (hi : i ∈ g.live)
  (hp : g.Printable i)

theorem plain_declaredType (i : Id) : Plain (declaredType g i) := .tyName _

include h hi hp

/-- What stands in the place of an expression has the same plain text everywhere. -/
theorem sameWords_place {c : Id} (hc : (.expression, c) ∈ (g.kind i).places) :
    SameWords (g.textOf "") (g.textOf indent) c := by
  have hchild : c ∈ g.children i := Kind.mem_children_of_places hc
  exact sameWords_text h (h.child_live hi hchild) (hp.child h hi hchild)
    (hp.expression h hi hc) indent

theorem sameWords_declaratorText (htakes : Position.declaration.takes (g.kind i) = true) :
    SameWords (declaratorText g (g.textOf "")) (declaratorText g (g.textOf indent)) i := by
  have hplace := fun c => sameWords_place h indent hi hp (c := c)
  have hexpr : isStatement (g.kind i) = false → SameWords (g.textOf "") (g.textOf indent) i :=
    fun hst => sameWords_text h hi hp hst indent
  unfold SameWords declaratorText
  cases hk : g.kind i with
  | declarator name init =>
    rw [hk] at hplace
    obtain ⟨hname, hplain⟩ := hplace name (by simp [Kind.places])
    cases init with
    | none =>
      dsimp only
      rw [hname]
      exact ⟨rfl, by simp +decide only [plain_append, plain_declaredType, hplain]⟩
    | some init =>
      obtain ⟨hinit, hplain'⟩ := hplace init (by simp [Kind.places])
      dsimp only
      rw [hname, hinit]
      exact ⟨rfl, by simp +decide only [plain_append, plain_declaredType, hplain, hplain']⟩
  | program | function | varDecl | block | exprStmt | ifElse | forLoop | ret | discard =>
    rw [hk] at htakes
    cases htakes
  | _ => exact hexpr (by rw [hk]; rfl)

theorem sameWords_entry {d : Id} (hd : (.declaration, d) ∈ (g.kind i).places) :
    SameWords (declaratorText g (g.textOf "")) (declaratorText g (g.textOf indent)) d := by
  have hchild : d ∈ g.children i := Kind.mem_children_of_places hd
  exact sameWords_declaratorText h indent (h.child_live hi hchild) (hp.child h hi hchild)
    ((hp.self h hi).taken _ hd)

theorem sameWords_conditionText {t : Id} (ht : (.expression, t) ∈ (g.kind i).places) :
    SameWords (conditionText g (g.textOf "")) (conditionText g (g.textOf indent)) t := by
  obtain ⟨hsame, hplain⟩ := sameWords_place h indent hi hp ht
  unfold SameWords conditionText
  split
  · exact ⟨hsame, hplain⟩
  · exact ⟨hsame, hplain⟩
  · rw [hsame]
    exact ⟨rfl, by simp +decide only [plain_append, hplain]⟩

theorem sameWords_paramText {p : Id} (hparam : (.expression, p) ∈ (g.kind i).places) :
    SameWords (paramText g (g.textOf "")) (paramText g (g.textOf indent)) p := by
  obtain ⟨hsame, hplain⟩ := sameWords_place h indent hi hp hparam
  unfold SameWords paramText
  rw [hsame]
  refine ⟨rfl, ?_⟩
  split_ifs <;> simp +decide only [plain_append, plain_declaredType, hplain]

theorem sameWords_initText {o : Option Id} (ho : ∀ c ∈ o, (.header, c) ∈ (g.kind i).places) :
    initText g (g.textOf indent) o = initText g (g.textOf "") o ∧
      Plain (initText g (g.textOf "") o) := by
  cases o with
  | none => exact ⟨rfl, (by decide : Plain "")⟩
  | some head =>
    have hhead := ho head rfl
    have hchild : head ∈ g.children i := Kind.mem_children_of_places hhead
    have hlive := h.child_live hi hchild
    have hp' := hp.child h hi hchild
    have htakes := (hp.self h hi).taken _ hhead
    have hexpr : isStatement (g.kind head) = false →
        SameWords (g.textOf "") (g.textOf indent) head := fun hst =>
      sameWords_text h hlive hp' hst indent
    unfold initText
    dsimp only at htakes ⊢
    cases hk : g.kind head with
    | varDecl ds =>
      have hall : ∀ d ∈ ds, SameWords (declaratorText g (g.textOf ""))
          (declaratorText g (g.textOf indent)) d := by
        intro d hd
        refine sameWords_entry h indent hlive hp' ?_
        rw [hk]
        exact List.mem_map_of_mem hd
      refine ⟨congrArg headerText (List.map_congr_left fun d hd => (hall d hd).1), ?_⟩
      refine Plain.headerText fun s hs => ?_
      obtain ⟨d, hd, rfl⟩ := List.mem_map.mp hs
      exact (hall d hd).2
    | program | function | declarator | block | exprStmt | ifElse | forLoop | ret | discard =>
      rw [hk] at htakes
      cases htakes
    | _ => exact hexpr (by rw [hk]; rfl)

/-- An optional part that is left out leaves nothing behind. -/
theorem sameWords_optional {o : Option Id} (ho : ∀ c ∈ o, (.expression, c) ∈ (g.kind i).places) :
    (o.map (g.textOf indent)).getD "" = (o.map (g.textOf "")).getD "" ∧
      Plain ((o.map (g.textOf "")).getD "") := by
  cases o with
  | none => exact ⟨rfl, (by decide : Plain "")⟩
  | some c => exact sameWords_place h indent hi hp (ho c rfl)

theorem sameWords_exprStmtLines {e : Id} (he : (.expression, e) ∈ (g.kind i).places) :
    exprStmtLines g (g.textOf indent) e = exprStmtLines g (g.textOf "") e ∧
      ∀ t ∈ exprStmtLines g (g.textOf "") e, Plain t := by
  have hchild : e ∈ g.children i := Kind.mem_children_of_places he
  have hlive := h.child_live hi hchild
  have hp' := hp.child h hi hchild
  have hst := hp.expression h hi he
  obtain ⟨hsame, hplain⟩ := sameWords_text h hlive hp' hst indent
  unfold exprStmtLines
  split
  case h_1 a b rest hk =>
    have hall : ∀ c ∈ a :: b :: rest, SameWords (g.textOf "") (g.textOf indent) c := by
      intro c hc
      refine sameWords_place h indent hlive hp' ?_
      rw [show g.kind e = _ from hk]
      exact List.mem_map_of_mem hc
    refine ⟨List.map_congr_left fun c hc => by rw [(hall c hc).1], fun t ht => ?_⟩
    obtain ⟨c, hc, rfl⟩ := List.mem_map.mp ht
    exact plain_append.mpr ⟨(hall c hc).2, by decide⟩
  case h_2 =>
    rw [hsame]
    refine ⟨rfl, fun t ht => ?_⟩
    rw [List.mem_singleton.mp ht]
    exact plain_append.mpr ⟨hplain, by decide⟩

end Parts

end ShaderScript
