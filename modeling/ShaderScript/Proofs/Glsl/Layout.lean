import ShaderScript.Proofs.Glsl.Plain

/-!
# The layout of a program

Each line of a statement stands as many steps in as there are braces open before it, and a line that
begins with a closing brace one step less. A statement closes the braces that it opens.

* `Braces`: the open braces after a text.
* `Laid`: lines in front of which stands the indentation of their depth, with one lemma for each way
  to put lines together.
* `laid_nestedLines`, `laid_elseLines`, `laid_functionText`: the parts of statements that open and
  close braces.
* **`lines_laid`**: statements and functions are laid out by the depth of their lines.
-/

namespace ShaderScript

/-! ## Braces -/

/-- A brace as a parenthesis, and anything else as a character that is none. -/
def braceAsParen (c : Char) : Char :=
  if c = '\x7b' then '(' else if c = '\x7d' then ')' else ' '

/-- A text takes `d` open braces to `e`, and closes no more than are open. -/
def Braces (d : Nat) (text : String) (e : Nat) : Prop :=
  nesting d (text.toList.map braceAsParen) = some e

instance (d : Nat) (text : String) (e : Nat) : Decidable (Braces d text e) :=
  inferInstanceAs (Decidable (_ = _))

namespace Braces

variable {d e f : Nat} {s t : String}

theorem append (hs : Braces d s e) (ht : Braces e t f) : Braces d (s ++ t) f := by
  unfold Braces at hs ht ⊢
  rw [String.toList_append, List.map_append, nesting_append, hs, Option.bind_some, ht]

theorem succ (h : Braces d s e) : Braces (d + 1) s (e + 1) := nesting_add 1 h

theorem of_plain (h : Plain s) (d : Nat) : Braces d s d := by
  have hall : ∀ cs : List Char, (∀ c ∈ cs, c ≠ '\x7b' ∧ c ≠ '\x7d' ∧ c ≠ '\n') →
      nesting d (cs.map braceAsParen) = some d := by
    intro cs hcs
    induction cs with
    | nil => rfl
    | cons c cs ih =>
      obtain ⟨hopen, hclose, -⟩ := hcs c List.mem_cons_self
      have hc : braceAsParen c = ' ' := by
        unfold braceAsParen
        rw [if_neg hopen, if_neg hclose]
      rw [List.map_cons, hc]
      exact ih fun c hc => hcs c (List.mem_cons_of_mem _ hc)
  exact hall _ h

end Braces

/-! ## Lines by depth -/

/-- A number of steps of indentation. -/
def indentation (unit : String) : Nat → String
  | 0 => ""
  | n + 1 => unit ++ indentation unit n

/-- The steps in front of a line before which `d` braces are open. -/
def lineDepth (d : Nat) (text : String) : Nat :=
  if text.toList.head? = some '\x7d' then d - 1 else d

/-- The texts, none of which has a line break, printed as lines: each behind the indentation of its
depth, from `d` open braces to `e`. -/
inductive Laid (unit : String) : Nat → List String → List String → Nat → Prop
  | nil {d} : Laid unit d [] [] d
  | cons {d e f text texts lines} : '\n' ∉ text.toList → Braces d text e →
      Laid unit e texts lines f →
      Laid unit d (text :: texts) ((indentation unit (lineDepth d text) ++ text) :: lines) f

/-- A line that opens a brace. -/
structure OpensBrace (text : String) : Prop where
  oneLine : '\n' ∉ text.toList
  braces : Braces 0 text 1

theorem Plain.oneLine {s : String} (h : Plain s) : '\n' ∉ s.toList := fun hn => (h _ hn).2.2 rfl

theorem Plain.opensBrace {s t : String} (hs : Plain s) (ht : OpensBrace t) :
    OpensBrace (s ++ t) where
  oneLine := by
    rw [String.toList_append, List.mem_append]
    exact not_or.mpr ⟨hs.oneLine, ht.oneLine⟩
  braces := (Braces.of_plain hs 0).append ht.braces

theorem lineDepth_zero (text : String) : lineDepth 0 text = 0 := by
  unfold lineDepth
  split_ifs <;> rfl

theorem indentation_zero_append (unit text : String) : indentation unit 0 ++ text = text :=
  String.empty_append

theorem lineDepth_succ {d e : Nat} {text : String} (h : Braces d text e) :
    lineDepth (d + 1) text = lineDepth d text + 1 := by
  unfold lineDepth
  split_ifs with hhead
  · obtain ⟨cs, hcs⟩ := List.head?_eq_some_iff.mp hhead
    have hd : d ≠ 0 := by
      rintro rfl
      unfold Braces at h
      rw [hcs] at h
      cases h
    omega
  · rfl

namespace Laid

variable {unit : String} {d e f : Nat} {texts texts' lines lines' : List String}

theorem append (h : Laid unit d texts lines e) (h' : Laid unit e texts' lines' f) :
    Laid unit d (texts ++ texts') (lines ++ lines') f := by
  induction h with
  | nil => exact h'
  | cons hn hb _ ih => exact .cons hn hb (ih h')

theorem nested (h : Laid unit d texts lines e) :
    Laid unit (d + 1) texts (lines.map (unit ++ ·)) (e + 1) := by
  induction h with
  | nil => exact .nil
  | @cons d _ _ text _ _ hn hb _ ih =>
    have hline : unit ++ (indentation unit (lineDepth d text) ++ text) =
        indentation unit (lineDepth (d + 1) text) ++ text := by
      rw [lineDepth_succ hb, ← String.append_assoc]
      rfl
    rw [List.map_cons, hline]
    exact .cons hn hb.succ ih

theorem atDepth (h : Laid unit d texts lines e) (n : Nat) :
    Laid unit (d + n) texts (lines.map (indentation unit n ++ ·)) (e + n) := by
  induction n with
  | zero => simpa [indentation] using h
  | succ n ih =>
    have hmap : lines.map (indentation unit (n + 1) ++ ·) =
        (lines.map (indentation unit n ++ ·)).map (unit ++ ·) := by
      rw [List.map_map]
      refine List.map_congr_left fun line _ => ?_
      exact String.append_assoc
    rw [hmap]
    exact ih.nested

theorem of_plain (h : ∀ t ∈ texts, Plain t) : Laid unit 0 texts texts 0 := by
  induction texts with
  | nil => exact .nil
  | cons t texts ih =>
    have ht := h t List.mem_cons_self
    have hrest := ih fun t ht => h t (List.mem_cons_of_mem _ ht)
    have hcons : Laid unit 0 (t :: texts) ((indentation unit (lineDepth 0 t) ++ t) :: texts) 0 :=
      .cons ht.oneLine (.of_plain ht 0) hrest
    rwa [lineDepth_zero, indentation_zero_append] at hcons

theorem flatMap {α : Type} {xs : List α} {f f' : α → List String}
    (h : ∀ x ∈ xs, Laid unit 0 (f x) (f' x) 0) :
    Laid unit 0 (xs.flatMap f) (xs.flatMap f') 0 := by
  induction xs with
  | nil => exact .nil
  | cons x xs ih =>
    rw [List.flatMap_cons, List.flatMap_cons]
    exact (h x List.mem_cons_self).append (ih fun y hy => h y (List.mem_cons_of_mem _ hy))

theorem opened {first : String} (hfirst : OpensBrace first) (h : Laid unit 1 texts lines e) :
    Laid unit 0 (first :: texts) (first :: lines) e := by
  have hcons := cons hfirst.oneLine hfirst.braces h
  rwa [lineDepth_zero, indentation_zero_append] at hcons

theorem closed {first : String} (hhead : first.toList.head? = some '\x7d')
    (hn : '\n' ∉ first.toList) (hb : Braces 1 first d) (h : Laid unit d texts lines e) :
    Laid unit 1 (first :: texts) (first :: lines) e := by
  have hcons := cons hn hb h
  have hdepth : lineDepth 1 first = 0 := if_pos hhead
  rwa [hdepth, indentation_zero_append] at hcons

theorem close : Laid unit 1 ["\x7d"] ["\x7d"] 0 := closed (by decide) (by decide) (by decide) nil

theorem braced {first : String} (hfirst : OpensBrace first) (h : Laid unit 1 texts lines 1) :
    Laid unit 0 (first :: (texts ++ ["\x7d"])) (first :: (lines ++ ["\x7d"])) 0 :=
  opened hfirst (h.append close)

theorem continued (h : Laid unit 0 texts lines 0) (hne : texts ≠ []) :
    Laid unit 1 (Glsl.continued texts) (Glsl.continued lines) 0 := by
  cases h with
  | nil => exact absurd rfl hne
  | @cons _ _ _ text _ _ hn hb hrest =>
    rw [lineDepth_zero, indentation_zero_append]
    have hclose : Braces 1 "\x7d else " 0 := by decide
    refine closed ?_ ?_ (hclose.append hb) hrest
    · rw [String.toList_append]
      rfl
    · rw [String.toList_append, List.mem_append]
      exact not_or.mpr ⟨by decide, hn⟩

end Laid

/-! ## Statements -/

section Statements

open Graph Glsl

variable {g : Graph} (h : g.IsTree) (unit : String) {i : Id}

/-- A node and the nodes below it are laid out. -/
def LaidBelow (g : Graph) (unit : String) (i : Id) : Prop :=
  ∀ d j, g.Below i d j → Laid unit 0 (g.lines "" j) (g.lines unit j) 0

theorem laid_nestedLines
    (hself : (∀ body, g.kind i ≠ .block body) → Laid unit 0 (g.lines "" i) (g.lines unit i) 0)
    (hb : ∀ c ∈ g.children i, LaidBelow g unit c) :
    Laid unit 1 (nestedLines g "" (g.lines "") i) (nestedLines g unit (g.lines unit) i) 1 := by
  have hempty : ∀ texts : List String, texts.map ("" ++ ·) = texts := fun texts => by
    simp only [String.empty_append, List.map_id']
  unfold nestedLines
  rw [hempty]
  unfold children at hb
  cases hk : g.kind i with
  | block body =>
    rw [hk] at hb
    exact Laid.nested (.flatMap fun s hs => hb s hs 0 s .refl)
  | _ => exact (hself fun body => by rw [hk]; nofun).nested

theorem LaidBelow.nestedLines (hb : LaidBelow g unit i) :
    Laid unit 1 (nestedLines g "" (g.lines "") i) (nestedLines g unit (g.lines unit) i) 1 :=
  laid_nestedLines unit (fun _ => hb 0 i .refl) fun _ hc d j hd => hb (d + 1) j (hd.cons hc)

include h in
theorem laid_elseLines {o : Option Id} (ho : ∀ a ∈ o, a ∈ g.live)
    (hb : ∀ a ∈ o, LaidBelow g unit a) :
    Laid unit 1 (elseLines g "" (g.lines "") o) (elseLines g unit (g.lines unit) o) 0 := by
  cases o with
  | none => exact .close
  | some a =>
    unfold elseLines
    dsimp only
    cases hk : g.kind a with
    | ifElse test body alternate =>
      refine (hb a rfl 0 a .refl).continued ?_
      rw [lines_ifElse h "" (ho a rfl) hk]
      exact List.cons_ne_nil _ _
    | _ =>
      refine Laid.closed (d := 1) (by decide) (by decide) (by decide) ?_
      exact (hb a rfl).nestedLines.append .close

section Node

variable (hi : i ∈ g.live) (hp : g.Printable i)

include h hi hp

theorem laid_functionText (hb : ∀ c ∈ g.children i, LaidBelow g unit c) (valued : Bool) :
    Laid unit 0 (g.functionLines "" valued i) (g.functionLines unit valued i) 0 := by
  have hplace := fun c => sameWords_place h unit hi hp (c := c)
  have hparam := fun p => sameWords_paramText h unit hi hp (p := p)
  have htext : ∀ u, g.functionLines u valued i =
      functionText g u (g.textOf u) (g.lines u) valued i := fun _ => rfl
  rw [htext, htext]
  unfold functionText
  unfold children at hb
  cases hk : g.kind i with
  | function name params body =>
    rw [hk] at hplace hparam hb
    obtain ⟨hname, hplain⟩ := hplace name (by simp [Kind.places])
    have hparams := fun p (hmem : p ∈ params) => hparam p (by simp [Kind.places, hmem])
    have hlist : params.map (paramText g (g.textOf unit)) =
        params.map (paramText g (g.textOf "")) :=
      List.map_congr_left fun p hmem => (hparams p hmem).1
    have hall : Plain (commaList (params.map (paramText g (g.textOf "")))) := by
      refine Plain.commaList fun s hs => ?_
      obtain ⟨p, hmem, rfl⟩ := List.mem_map.mp hs
      exact (hparams p hmem).2
    have hret : Plain (if (valued || g.returnsValue i) = true then declaredType g name
        else "void") := by
      split_ifs
      · exact plain_declaredType name
      · decide
    dsimp only
    rw [hname, hlist]
    refine .braced (Plain.opensBrace ?_ ⟨by decide, by decide⟩)
      (hb body (by simp [Kind.children])).nestedLines
    simp +decide only [plain_append, hret, hplain, hall]
  | _ => exact .nil

theorem laid_expression (hst : isStatement (g.kind i) = false) :
    Laid unit 0 (g.lines "" i) (g.lines unit i) 0 := by
  obtain ⟨hsame, hplain⟩ := sameWords_text h hi hp hst unit
  rw [h.lines_expression "" hi hst, h.lines_expression unit hi hst, hsame]
  exact .of_plain (List.forall_mem_singleton.mpr (plain_append.mpr ⟨hplain, by decide⟩))

/-- A statement is laid out if everything below it is. -/
theorem laid_statement (hst : isStatement (g.kind i) = true)
    (hb : ∀ c ∈ g.children i, LaidBelow g unit c) :
    Laid unit 0 (g.lines "" i) (g.lines unit i) 0 := by
  have hplace := fun c => sameWords_place h unit hi hp (c := c)
  have hentry := fun d => sameWords_entry h unit hi hp (d := d)
  have htaken := (hp.self h hi).taken
  have hfunction := laid_functionText h unit hi hp hb false
  have htext : ∀ u, exprAt g u g.textDepth = g.textOf u := fun _ => rfl
  have hlines : ∀ u, linesAt g u g.textDepth = g.lines u := fun _ => rfl
  rw [h.lines_succ "" hi, h.lines_succ unit hi]
  unfold linesAt
  simp only [htext, hlines]
  cases hk : g.kind i with
  | conditional | binary | assign | unary | update | call | field | index | array | ident | this
  | number | bool | sequence | raw =>
    rw [hk] at hst
    cases hst
  | program body =>
    exact .flatMap fun s hs => hb s (by rwa [children, hk]) 0 s .refl
  | function name params body => exact hfunction
  | varDecl ds =>
    rw [hk] at hentry
    have hall := fun d (hd : d ∈ ds) => hentry d (List.mem_map_of_mem hd)
    have hsame : ds.map (fun d => declaratorText g (g.textOf unit) d ++ ";") =
        ds.map fun d => declaratorText g (g.textOf "") d ++ ";" :=
      List.map_congr_left fun d hd => by rw [(hall d hd).1]
    dsimp only
    rw [hsame]
    refine .of_plain fun t ht => ?_
    obtain ⟨d, hd, rfl⟩ := List.mem_map.mp ht
    exact plain_append.mpr ⟨(hall d hd).2, by decide⟩
  | declarator name init =>
    obtain ⟨hsame, hplain⟩ := sameWords_declaratorText h unit hi hp (by rw [hk]; rfl)
    dsimp only
    rw [hsame]
    exact .of_plain (List.forall_mem_singleton.mpr (plain_append.mpr ⟨hplain, by decide⟩))
  | block body =>
    exact .braced ⟨by decide, by decide⟩
      (laid_nestedLines unit (fun hno => absurd hk (hno body)) hb)
  | exprStmt e =>
    obtain ⟨hsame, hplain⟩ := sameWords_exprStmtLines h unit hi hp (e := e)
      (by rw [hk]; exact List.mem_singleton_self _)
    dsimp only
    rw [hsame]
    exact .of_plain hplain
  | ifElse test consequent alternate =>
    obtain ⟨hsame, hplain⟩ := sameWords_conditionText h unit hi hp (t := test)
      (by rw [hk]; exact List.mem_cons_self)
    have halternate : ∀ a ∈ alternate, a ∈ g.children i := fun a (ha : alternate = some a) => by
      simp [children, hk, Kind.children, ha]
    dsimp only
    rw [hsame]
    have hopens : Plain ("if " ++ conditionText g (g.textOf "") test) :=
      plain_append.mpr ⟨by decide, hplain⟩
    refine .opened (hopens.opensBrace ⟨by decide, by decide⟩) ?_
    refine (hb consequent (by simp [children, hk, Kind.children])).nestedLines.append ?_
    exact laid_elseLines h unit (fun a ha => h.child_live hi (halternate a ha)) fun a ha =>
      hb a (halternate a ha)
  | forLoop init test step body =>
    obtain ⟨hinit, hplain⟩ := sameWords_initText h unit hi hp (o := init)
      fun a (ha : init = some a) => by simp [hk, Kind.places, ha]
    obtain ⟨htest, hplain'⟩ := sameWords_optional h unit hi hp (o := test)
      fun a (ha : test = some a) => by simp [hk, Kind.places, ha]
    obtain ⟨hstep, hplain''⟩ := sameWords_optional h unit hi hp (o := step)
      fun a (ha : step = some a) => by simp [hk, Kind.places, ha]
    dsimp only
    rw [hinit, htest, hstep]
    refine .braced (Plain.opensBrace ?_ ⟨by decide, by decide⟩)
      (hb body (by simp [children, hk, Kind.children])).nestedLines
    simp +decide only [plain_append, hplain, hplain', hplain'']
  | ret argument =>
    cases argument with
    | none => exact .of_plain (List.forall_mem_singleton.mpr (by decide))
    | some a =>
      obtain ⟨hsame, hplain⟩ := hplace a (by rw [hk]; exact List.mem_singleton_self _)
      dsimp only
      rw [hsame]
      refine .of_plain (List.forall_mem_singleton.mpr ?_)
      simp +decide only [plain_append, hplain]
  | discard => exact .of_plain (List.forall_mem_singleton.mpr (by decide))

theorem laidBelow : LaidBelow g unit i := by
  obtain ⟨b, hb⟩ : ∃ b, ∀ d j, g.Below i d j → d < b :=
    ⟨g.size, fun _ _ => h.unshared.below_lt hi⟩
  induction b generalizing i with
  | zero => exact absurd (hb 0 i .refl) (Nat.not_lt_zero 0)
  | succ b ih =>
    have hchild : ∀ c ∈ g.children i, LaidBelow g unit c := fun c hc =>
      ih (h.child_live hi hc) (hp.child h hi hc) fun d j hd =>
        Nat.lt_of_succ_lt_succ (hb (d + 1) j (hd.cons hc))
    rintro (_ | d) j hd
    · cases hd
      cases hst : isStatement (g.kind i) with
      | false => exact laid_expression h unit hi hp hst
      | true => exact laid_statement h unit hi hp hst hchild
    · obtain ⟨c, hc, hd⟩ := hd.uncons
      exact hchild c hc d j hd

end Node

end Statements

open Graph Glsl

/-- **Statements and functions are laid out by the depth of their lines.** In whatever steps they
are indented and however deep they stand, the lines are those without indentation, each behind as
many steps as there are braces open before it, one less if it begins with a closing brace. Every
brace that is opened is closed, and no other. -/
theorem lines_laid {g : Graph} (h : g.IsTree) {i : Id} (hi : i ∈ g.live) (hp : g.Printable i)
    (unit : String) (n : Nat) :
    Laid unit n (g.lines "" i) ((g.lines unit i).map (indentation unit n ++ ·)) n ∧
    ∀ valued, Laid unit n (g.functionLines "" valued i)
      ((g.functionLines unit valued i).map (indentation unit n ++ ·)) n := by
  have hbelow := laidBelow h unit hi hp
  have hfunction := laid_functionText h unit hi hp fun c hc d j hd => hbelow (d + 1) j (hd.cons hc)
  have hdeep : ∀ {texts lines : List String}, Laid unit 0 texts lines 0 →
      Laid unit n texts (lines.map (indentation unit n ++ ·)) n := fun hlaid => by
    simpa only [Nat.zero_add] using hlaid.atDepth n
  exact ⟨hdeep (hbelow 0 i .refl), fun valued => hdeep (hfunction valued)⟩

/-- The program `function f(a) { for (var i = 0; i < a; i++) if (a) { { } } else if (b) return; else
function h() { } }`. -/
def nestedBodies : Graph := Build.finish do
  let init ← Build.var "i" (some (← Build.num "0"))
  let test ← Build.binary .lt (← Build.ident "i") (← Build.ident "a")
  let step ← Build.update .increment false (← Build.ident "i")
  let helper ← Build.node (.function (← Build.ident "h") [] (← Build.block []))
  let last ← Build.ifElse (← Build.ident "b") (← Build.ret none) (some helper)
  let choice ← Build.ifElse (← Build.ident "a") (← Build.block [← Build.block []]) (some last)
  let _ ← Build.function "f" ["a"] [← Build.forLoop (some init) (some test) (some step) choice]

/-- Bodies with and without braces of their own, a chain of branches and a function in a function,
laid out from the left and from one step in. -/
theorem lines_laid_nestedBodies :
    nestedBodies.IsTree ∧ 23 ∈ nestedBodies.live ∧ nestedBodies.Printable 23 ∧
    nestedBodies.lines "  " 23 =
      ["void f(float a) \x7b", "  for (float i = 0; (i < a); i++) \x7b", "    if (a) \x7b",
        "      \x7b", "      \x7d", "    \x7d else if (b) \x7b", "      return;",
        "    \x7d else \x7b", "      void h() \x7b", "      \x7d", "    \x7d", "  \x7d", "\x7d"] ∧
    Laid "  " 1 (nestedBodies.lines "" 23)
      ((nestedBodies.lines "  " 23).map (indentation "  " 1 ++ ·)) 1 := by
  have h : nestedBodies.IsTree := by decide +kernel
  have hi : 23 ∈ nestedBodies.live := by decide +kernel
  have hp : nestedBodies.Printable 23 := by decide +kernel
  exact ⟨h, hi, hp, by decide +kernel, (lines_laid h hi hp "  " 1).1⟩

end ShaderScript
