import ShaderScript.Builder
import ShaderScript.Proofs.Glsl.Within

/-!
# Conditions in parentheses

The line that opens a branch of an `if` statement shows the condition in parentheses. A binary
operation and a choice have parentheses of their own and get no others, and a remainder, which is a
binary operation too, is written as a call.

* `nesting`, `Glsl.Nests`: the open parentheses after a text.
* `Balanced`, `Enclosed`: texts that close what they open, and texts in one pair of parentheses.
* `Kind.spelling?`, `Graph.PlainlySpelled`: what is taken over into a text as it stands.
* `balanced_exprAt`: the text of an expression is balanced.
* **`enclosed_conditionText_iff`**: only a remainder is not enclosed.
* `Graph.branches`: the branches of an `if` statement that have a condition.
* **`branches_enclosed_iff`**: the lines of an `if` statement, and which of their conditions are
  enclosed.
* `branches_remainder_bare`: a line with no parentheses around its condition.
-/

namespace ShaderScript

/-! ## Parentheses -/

/-- The number of open parentheses after a text that begins with `d` open ones, if it closes no
more than are open. -/
def nesting : Nat → List Char → Option Nat
  | d, [] => some d
  | d, c :: cs =>
    if c = '(' then nesting (d + 1) cs
    else if c = ')' then if d = 0 then none else nesting (d - 1) cs
    else nesting d cs

/-- A text takes `d` open parentheses to `e`. -/
def Nests (d : Nat) (text : String) (e : Nat) : Prop := nesting d text.toList = some e

instance (d : Nat) (text : String) (e : Nat) : Decidable (Nests d text e) :=
  inferInstanceAs (Decidable (_ = _))

/-- A text closes the parentheses that it opens, and no others. -/
def Balanced (text : String) : Prop := Nests 0 text 0

instance (text : String) : Decidable (Balanced text) := inferInstanceAs (Decidable (Nests 0 text 0))

/-- A text begins with a parenthesis that its last character closes. -/
def Enclosed (text : String) : Prop := ∃ inner, text = "(" ++ inner ++ ")" ∧ Balanced inner

theorem nesting_append (d : Nat) (cs ds : List Char) :
    nesting d (cs ++ ds) = (nesting d cs).bind fun e => nesting e ds := by
  induction cs generalizing d with
  | nil => rfl
  | cons c cs ih =>
    rw [List.cons_append, nesting, nesting]
    split_ifs
    · exact ih _
    · rfl
    · exact ih _
    · exact ih _

/-- Parentheses that are open all along make no difference. -/
theorem nesting_add {d e : Nat} {cs : List Char} (k : Nat) (h : nesting d cs = some e) :
    nesting (d + k) cs = some (e + k) := by
  induction cs generalizing d with
  | nil =>
    obtain rfl := Option.some.inj h
    rfl
  | cons c cs ih =>
    rw [nesting] at h ⊢
    split_ifs at h ⊢
    · rw [Nat.add_right_comm]
      exact ih h
    · omega
    · have hlt := Nat.pos_of_ne_zero ‹d ≠ 0›
      rw [Nat.sub_add_comm hlt]
      exact ih h
    · exact ih h

theorem Nests.append {d e f : Nat} {s t : String} (hs : Nests d s e) (ht : Nests e t f) :
    Nests d (s ++ t) f := by
  unfold Nests at hs ht ⊢
  rw [String.toList_append, nesting_append, hs, Option.bind_some, ht]

namespace Balanced

variable {s t : String}

theorem nests (h : Balanced s) (d : Nat) : Nests d s d := by
  have hd := nesting_add d h
  rwa [Nat.zero_add] at hd

theorem append (hs : Balanced s) (ht : Balanced t) : Balanced (s ++ t) := Nests.append hs ht

theorem paren (h : Balanced s) : Balanced ("(" ++ s ++ ")") :=
  ((show Nests 0 "(" 1 by decide).append (h.nests 1)).append (by decide)

theorem bracket (h : Balanced s) : Balanced ("[" ++ s ++ "]") :=
  ((show Balanced "[" by decide).append h).append (by decide)

theorem of_free (h : ∀ c ∈ s.toList, c ≠ '(' ∧ c ≠ ')') : Balanced s := by
  have hall : ∀ cs : List Char, (∀ c ∈ cs, c ≠ '(' ∧ c ≠ ')') → nesting 0 cs = some 0 := by
    intro cs
    induction cs with
    | nil => exact fun _ => rfl
    | cons c cs ih =>
      intro hcs
      obtain ⟨hopen, hclose⟩ := hcs c List.mem_cons_self
      rw [nesting, if_neg hopen, if_neg hclose]
      exact ih fun c hc => hcs c (List.mem_cons_of_mem _ hc)
  exact hall _ h

theorem toString_nat (n : Nat) : Balanced (toString n) := by
  refine of_free fun c hc => ?_
  have hmem : c ∈ Nat.toDigits 10 n := by simpa using hc
  have hd := Nat.isDigit_of_mem_toDigits (by decide) (by decide) hmem
  constructor <;> rintro rfl <;> cases hd

theorem tyName (t : Ty) : Balanced t.name := by
  cases t <;> decide

theorem commaList {texts : List String} (h : ∀ s ∈ texts, Balanced s) :
    Balanced (Glsl.commaList texts) := by
  unfold Glsl.commaList
  induction texts with
  | nil => decide
  | cons first rest ih =>
    have hfirst := h first List.mem_cons_self
    have hrest := ih fun s hs => h s (List.mem_cons_of_mem _ hs)
    cases rest with
    | nil => simpa using hfirst
    | cons second rest =>
      rw [String.intercalate_cons_cons]
      exact (hfirst.append (by decide)).append hrest

theorem applied {texts : List String} (hs : Balanced s) (h : ∀ t ∈ texts, Balanced t) :
    Balanced (s ++ "(" ++ Glsl.commaList texts ++ ")") := by
  have hparen := hs.append (commaList h).paren
  simpa only [String.append_assoc] using hparen

/-! ### The forms of an expression -/

theorem numberText (h : Balanced s) (ty : Option Ty) : Balanced (Glsl.numberText s ty) := by
  unfold Glsl.numberText
  split_ifs
  · exact h.append (by decide)
  · exact h

theorem infixed {op : String} (hs : Balanced s) (ht : Balanced t) (hop : Balanced op) :
    Balanced (s ++ " " ++ op ++ " " ++ t) :=
  (((hs.append (by decide)).append hop).append (by decide)).append ht

theorem binaryOp (op : BinaryOp) : Balanced op.glsl := by
  cases op <;> decide

theorem assignOp (op : AssignOp) : Balanced op.glsl := by
  cases op <;> decide

theorem updateText (op : UpdateOp) (leading : Bool) (h : Balanced s) :
    Balanced (Glsl.updateText op leading s) := by
  have hop : Balanced op.glsl := by cases op <;> decide
  unfold Glsl.updateText
  split_ifs
  · exact hop.append h
  · exact h.append hop

theorem signed {sign : Char} (hsign : Balanced sign.toString) (h : Balanced s) :
    Balanced (Glsl.signed sign s) := by
  unfold Glsl.signed
  split_ifs
  · have hparen := hsign.append h.paren
    simpa only [String.append_assoc] using hparen
  · exact hsign.append h

theorem unaryText (op : UnaryOp) (h : Balanced s) : Balanced (Glsl.unaryText op s) := by
  cases op with
  | plus => exact h
  | neg => exact signed (by decide) h
  | not => exact signed (by decide) h

theorem indexText (dimension literal : Option Nat) (hs : Balanced s) (ht : Balanced t) :
    Balanced (Glsl.indexText dimension literal s t) := by
  unfold Glsl.indexText
  split
  case h_1 =>
    have hplain := hs.append ht.bracket
    simpa only [String.append_assoc] using hplain
  case h_2 n k =>
    have hcolumn := (hs.append (t := "[") (by decide)).append (toString_nat (k / n))
    have hrow := (hcolumn.append (t := "][") (by decide)).append (toString_nat (k % n))
    exact hrow.append (by decide)
  case h_3 n =>
    have hcolumn : Balanced ("(" ++ t ++ " / " ++ toString n ++ ")") := by
      have hparen := ((ht.append (t := " / ") (by decide)).append (toString_nat n)).paren
      simpa only [String.append_assoc] using hparen
    -- the column closes what it opens, and the row is what is left of the position
    have htarget := (hs.append (t := "[") (by decide)).append hcolumn
    have hopen : Nests 0 _ 1 := Nests.append htarget (show Nests 0 "][(" 1 by decide)
    have hposition := hopen.append (ht.nests 1)
    have hrow := (hposition.append (show Nests 1 " - (" 2 by decide)).append (hcolumn.nests 2)
    have hproduct := hrow.append (show Nests 2 " * " 2 by decide)
    exact (hproduct.append ((toString_nat n).nests 2)).append (show Nests 2 "))]" 0 by decide)

end Balanced

/-! ## Texts of expressions -/

/-- What is taken over into the text of a node as it stands. -/
def Kind.spelling? : Kind → Option String
  | .ident text | .number text | .raw text => some text
  | _ => none

namespace Graph

variable {g : Graph} {i c : Id}

/-- The node is an expression down to its leaves, and no name, number or source text in it opens or
closes a parenthesis of something else. -/
def PlainlySpelled (g : Graph) (i : Id) : Prop :=
  ∀ d j, g.Below i d j → Glsl.isStatement (g.kind j) = false ∧
    ∀ s, (g.kind j).spelling? = some s → Balanced s

theorem PlainlySpelled.child (h : g.PlainlySpelled i) (hc : c ∈ g.children i) :
    g.PlainlySpelled c := fun d j hd => h (d + 1) j (hd.cons hc)

theorem IsTree.plainlySpelled_iff (h : g.IsTree) (hi : i ∈ g.live) : g.PlainlySpelled i ↔
    ∀ j ∈ g.descendants i, Glsl.isStatement (g.kind j) = false ∧
      ∀ s ∈ (g.kind j).spelling?, Balanced s := by
  constructor
  · intro hp j hj
    obtain ⟨d, hd⟩ := (h.mem_descendants_iff hi).mp hj
    exact hp d j hd
  · intro hp d j hd
    exact hp j ((h.mem_descendants_iff hi).mpr ⟨d, hd⟩)

/-- Whether a node is a remainder. -/
def isRemainder (g : Graph) (i : Id) : Bool :=
  match g.kind i with
  | .binary .rem _ _ => true
  | _ => false

end Graph

open Graph Glsl

variable {g : Graph} {i : Id}

theorem enclosed_binaryText {op : BinaryOp} {s t : String} (hop : op ≠ .rem) (hs : Balanced s)
    (ht : Balanced t) : Enclosed (binaryText op s t) := by
  refine ⟨s ++ " " ++ op.glsl ++ " " ++ t, ?_, hs.infixed ht (.binaryOp op)⟩
  cases op
  case rem => exact absurd rfl hop
  all_goals simp only [binaryText, String.append_assoc]

theorem Enclosed.balanced {s : String} (h : Enclosed s) : Balanced s := by
  obtain ⟨inner, rfl, hinner⟩ := h
  exact hinner.paren

theorem balanced_remainder {s t : String} (hs : Balanced s) (ht : Balanced t) :
    Balanced (binaryText .rem s t) := by
  have hleft := (show Nests 0 "mod(" 1 by decide).append (hs.nests 1)
  exact ((hleft.append (show Nests 1 ", " 1 by decide)).append (ht.nests 1)).append
    (show Nests 1 ")" 0 by decide)

theorem enclosed_conditional {s t u : String} (hs : Balanced s) (ht : Balanced t)
    (hu : Balanced u) : Enclosed ("(" ++ s ++ " ? " ++ t ++ " : " ++ u ++ ")") := by
  refine ⟨s ++ " ? " ++ t ++ " : " ++ u, by simp only [String.append_assoc], ?_⟩
  exact (((hs.append (by decide)).append ht).append (by decide)).append hu

/-- **The text of an expression is balanced**, whatever is left of the depth. -/
theorem balanced_exprAt (indent : String) (n : Nat) (h : g.PlainlySpelled i) :
    Balanced (exprAt g indent n i) := by
  induction n generalizing i with
  | zero => exact (by decide : Balanced "")
  | succ n ih =>
    obtain ⟨hst, hspelled⟩ := h 0 i .refl
    have hchild : ∀ c ∈ g.children i, Balanced (exprAt g indent n c) := fun c hc => ih (h.child hc)
    have hlist : ∀ {cs : List Id}, (∀ c ∈ cs, c ∈ g.children i) →
        ∀ s ∈ cs.map (exprAt g indent n), Balanced s := by
      intro cs hcs s hs
      obtain ⟨c, hc, rfl⟩ := List.mem_map.mp hs
      exact hchild c (hcs c hc)
    unfold exprAt
    unfold children at hchild hlist
    cases hk : g.kind i with
    | program | function | varDecl | declarator | block | exprStmt | ifElse | forLoop | ret
    | discard =>
      rw [hk] at hst
      cases hst
    | ident name => exact hspelled name (by rw [hk]; rfl)
    | this => exact (by decide : Balanced "this")
    | bool value =>
      cases value
      · exact (by decide : Balanced "false")
      · exact (by decide : Balanced "true")
    | number raw => exact (hspelled raw (by rw [hk]; rfl)).numberText _
    | raw source => exact hspelled source (by rw [hk]; rfl)
    | binary op left right =>
      simp only [hk, Kind.children, List.mem_cons, forall_eq_or_imp] at hchild
      by_cases hop : op = .rem
      · subst hop
        exact balanced_remainder hchild.1 hchild.2.1
      · exact (enclosed_binaryText hop hchild.1 hchild.2.1).balanced
    | assign op left right =>
      simp only [hk, Kind.children, List.mem_cons, forall_eq_or_imp] at hchild
      exact hchild.1.infixed hchild.2.1 (.assignOp op)
    | unary op argument =>
      simp only [hk, Kind.children, List.mem_cons, forall_eq_or_imp] at hchild
      exact hchild.1.unaryText op
    | update op leading argument =>
      simp only [hk, Kind.children, List.mem_cons, forall_eq_or_imp] at hchild
      exact hchild.1.updateText op leading
    | conditional test consequent alternate =>
      simp only [hk, Kind.children, List.mem_cons, forall_eq_or_imp] at hchild
      exact (enclosed_conditional hchild.1 hchild.2.1 hchild.2.2.1).balanced
    | call callee args =>
      rw [hk] at hchild hlist
      exact (hchild callee List.mem_cons_self).applied (hlist fun c hc => List.mem_cons_of_mem _ hc)
    | field object property =>
      simp only [hk, Kind.children, List.mem_cons, forall_eq_or_imp] at hchild
      exact (hchild.1.append (by decide)).append hchild.2.1
    | index object property =>
      simp only [hk, Kind.children, List.mem_cons, forall_eq_or_imp] at hchild
      exact hchild.1.indexText _ _ hchild.2.1
    | array elements =>
      rw [hk] at hlist
      refine Balanced.applied ?_ (hlist fun c hc => hc)
      unfold constructorName
      split
      · exact .tyName _
      · exact Balanced.append (by decide) (.toString_nat _)
    | sequence exprs =>
      rw [hk] at hchild hlist
      have hall : Balanced ("(" ++ commaList (exprs.map (exprAt g indent n)) ++ ")") :=
        (Balanced.commaList (hlist fun c hc => hc)).paren
      obtain _ | ⟨a, _ | ⟨b, rest⟩⟩ := exprs
      · exact hall
      · exact hchild a List.mem_cons_self
      · exact hall

/-! ## Conditions -/

theorem not_enclosed_remainder (s t : String) : ¬ Enclosed (binaryText .rem s t) := by
  rintro ⟨inner, he, -⟩
  have hlist := congrArg String.toList he
  simp [binaryText] at hlist

/-- **A condition is enclosed in parentheses if and only if it is no remainder.** -/
theorem enclosed_conditionText_iff (indent : String) (n : Nat) (h : g.PlainlySpelled i) :
    Enclosed (conditionText g (exprAt g indent (n + 1)) i) ↔ g.isRemainder i = false := by
  have hchild : ∀ c ∈ g.children i, Balanced (exprAt g indent n c) := fun c hc =>
    balanced_exprAt indent n (h.child hc)
  have hparen : Enclosed ("(" ++ exprAt g indent (n + 1) i ++ ")") :=
    ⟨_, rfl, balanced_exprAt indent (n + 1) h⟩
  unfold children at hchild
  unfold conditionText isRemainder
  cases hk : g.kind i with
  | binary op left right =>
    simp only [hk, Kind.children, List.mem_cons, forall_eq_or_imp] at hchild
    have htext : exprAt g indent (n + 1) i =
        binaryText op (exprAt g indent n left) (exprAt g indent n right) := by
      simp only [exprAt, hk]
    dsimp only
    rw [htext]
    by_cases hop : op = .rem
    · subst hop
      exact iff_of_false (not_enclosed_remainder _ _) (by simp)
    · refine iff_of_true (enclosed_binaryText hop hchild.1 hchild.2.1) ?_
      cases op <;> first | rfl | exact absurd rfl hop
  | conditional test consequent alternate =>
    simp only [hk, Kind.children, List.mem_cons, forall_eq_or_imp] at hchild
    have htext : exprAt g indent (n + 1) i = "(" ++ exprAt g indent n test ++ " ? " ++
        exprAt g indent n consequent ++ " : " ++ exprAt g indent n alternate ++ ")" := by
      simp only [exprAt, hk]
    dsimp only
    rw [htext]
    exact iff_of_true (enclosed_conditional hchild.1 hchild.2.1 hchild.2.2.1) rfl
  | _ => exact iff_of_true hparen rfl

/-! ## The lines of an `if` statement -/

namespace Graph

/-- The tests and bodies of an `if` statement and of those that go on where it ends, to a depth. -/
def branchesTo (g : Graph) : Nat → Id → List (Id × Id)
  | 0, _ => []
  | n + 1, i =>
    match g.kind i with
    | .ifElse test body none => [(test, body)]
    | .ifElse test body (some alternate) => (test, body) :: branchesTo g n alternate
    | _ => []

/-- The branches of an `if` statement that have a condition, with their tests and bodies. -/
def branches (g : Graph) (i : Id) : List (Id × Id) := g.branchesTo g.size i

/-- The condition that is printed for a test. -/
def condition (g : Graph) (indent : String) (test : Id) : String :=
  conditionText g (g.textOf indent) test

/-- The lines of a branch: one that opens it under a condition, and those of its body. -/
def branchLines (g : Graph) (indent opener : String) (branch : Id × Id) : List String :=
  (opener ++ g.condition indent branch.1 ++ " \x7b") ::
    nestedLines g indent (g.lines indent) branch.2

/-- The lines with which an `if` statement ends after its branches with conditions. -/
def Closes (g : Graph) (indent : String) (lines : List String) : Prop :=
  lines = ["\x7d"] ∨
    ∃ body, lines = "\x7d else \x7b" :: (nestedLines g indent (g.lines indent) body ++ ["\x7d"])

section Trees

variable (h : g.IsTree) (indent : String)

include h

theorem lines_ifElse {test body : Id} {alternate : Option Id} (hi : i ∈ g.live)
    (hk : g.kind i = .ifElse test body alternate) :
    g.lines indent i = g.branchLines indent "if " (test, body) ++
      elseLines g indent (g.lines indent) alternate := by
  rw [h.lines_succ indent hi, linesAt]
  simp only [hk]
  rfl

/-- The branches of an `if` statement, one after the other, and what closes the last. -/
theorem lines_branchesTo {n : Nat} {test body : Id} {alternate : Option Id} (hi : i ∈ g.live)
    (hk : g.kind i = .ifElse test body alternate) (hn : ∀ d j, g.Below i d j → d < n) :
    ∃ rest last, g.branchesTo n i = (test, body) :: rest ∧ g.Closes indent last ∧
      g.lines indent i = g.branchLines indent "if " (test, body) ++
        (rest.flatMap (g.branchLines indent "\x7d else if ") ++ last) := by
  induction n generalizing i test body alternate with
  | zero => exact absurd (hn 0 i .refl) (Nat.not_lt_zero 0)
  | succ n ih =>
    rw [branchesTo, lines_ifElse h indent hi hk]
    simp only [hk]
    cases alternate with
    | none => exact ⟨[], _, rfl, .inl rfl, rfl⟩
    | some a =>
      have hc : a ∈ g.children i := by
        rw [children, hk]
        simp [Kind.children]
      cases hka : g.kind a with
      | ifElse test' body' alternate' =>
        obtain ⟨rest, last, hrest, hlast, hlines⟩ := ih (h.child_live hi hc) hka
          fun d j hd => Nat.lt_of_succ_lt_succ (hn (d + 1) j (hd.cons hc))
        refine ⟨(test', body') :: rest, last, congrArg ((test, body) :: ·) hrest, hlast, ?_⟩
        -- the line that opens the next branch continues the one that closes this one
        have hopener : ∀ s : String,
            "\x7d else " ++ ("if " ++ s) = "\x7d else if " ++ s := fun s => by
          rw [← String.append_assoc]
          rfl
        simp only [elseLines, hka, hlines, branchLines, continued, List.cons_append,
          List.flatMap_cons, List.append_assoc, String.append_assoc, hopener]
      | _ =>
        refine ⟨[], _, ?_, .inr ⟨a, rfl⟩, ?_⟩
        · cases n with
          | zero => rfl
          | succ n => simp only [branchesTo, hka]
        · simp only [elseLines, hka, List.flatMap_nil, List.nil_append]

theorem live_of_mem_branchesTo {n : Nat} {b : Id × Id} (hi : i ∈ g.live)
    (hb : b ∈ g.branchesTo n i) : b.1 ∈ g.live := by
  induction n generalizing i with
  | zero => cases hb
  | succ n ih =>
    rw [branchesTo] at hb
    split at hb
    case h_1 test body hk =>
      rw [List.mem_singleton.mp hb]
      exact h.child_live hi (by rw [children, hk]; exact List.mem_cons_self)
    case h_2 test body alternate hk =>
      rcases List.mem_cons.mp hb with rfl | hb
      · exact h.child_live hi (by rw [children, hk]; exact List.mem_cons_self)
      · exact ih (h.child_live hi (by rw [children, hk]; simp [Kind.children])) hb
    case h_3 => cases hb

theorem enclosed_condition_iff {test : Id} (ht : test ∈ g.live) (hplain : g.PlainlySpelled test) :
    Enclosed (g.condition indent test) ↔ g.isRemainder test = false := by
  rw [← enclosed_conditionText_iff indent g.textDepth hplain]
  unfold condition conditionText
  rw [h.textOf_succ indent ht]

end Trees

end Graph

/-- **The lines of an `if` statement** are those of its branches, each opened under its condition,
and what closes the last. A condition is enclosed in parentheses, as long as nothing that is taken
over into it opens or closes any, if and only if the test is no remainder. -/
theorem branches_enclosed_iff (h : g.IsTree) (indent : String) (hi : i ∈ g.live) {test body : Id}
    {alternate : Option Id} (hk : g.kind i = .ifElse test body alternate) :
    (∃ rest last, g.branches i = (test, body) :: rest ∧ g.Closes indent last ∧
      g.lines indent i = g.branchLines indent "if " (test, body) ++
        (rest.flatMap (g.branchLines indent "\x7d else if ") ++ last)) ∧
    ∀ b ∈ g.branches i, g.PlainlySpelled b.1 →
      (Enclosed (g.condition indent b.1) ↔ g.isRemainder b.1 = false) := by
  refine ⟨lines_branchesTo h indent hi hk fun d j hd => h.unshared.below_lt hi hd,
    fun b hb hplain => ?_⟩
  exact enclosed_condition_iff h indent (live_of_mem_branchesTo h hi hb) hplain

/-- The program `if (a % b) { } else if (a < b) { } else { }`. -/
def remainderTest : Graph := Build.finish do
  let compare ← Build.binary .lt (← Build.ident "a") (← Build.ident "b")
  let inner ← Build.ifElse compare (← Build.block []) (some (← Build.block []))
  let rem ← Build.binary .rem (← Build.ident "a") (← Build.ident "b")
  Build.statement (← Build.ifElse rem (← Build.block []) (some inner))

-- one evaluation for all that is said about the program below
theorem shown_remainderTest : remainderTest.IsTree ∧ 10 ∈ remainderTest.live ∧
    remainderTest.kind 10 = .ifElse 8 9 (some 5) ∧
    remainderTest.branches 10 = [(8, 9), (2, 3)] ∧
    remainderTest.lines "  " 10 =
      ["if mod(a, b) \x7b", "\x7d else if (a < b) \x7b", "\x7d else \x7b", "\x7d"] ∧
    remainderTest.isRemainder 8 = true ∧ remainderTest.isRemainder 2 = false ∧
    ∀ b ∈ remainderTest.branches 10, b.1 ∈ remainderTest.live ∧
      ∀ j ∈ remainderTest.descendants b.1, isStatement (remainderTest.kind j) = false ∧
        ∀ s ∈ (remainderTest.kind j).spelling?, Balanced s := by
  decide +kernel

theorem plainlySpelled_remainderTest : ∀ b ∈ remainderTest.branches 10,
    b.1 ∈ remainderTest.live ∧ remainderTest.PlainlySpelled b.1 := by
  obtain ⟨hg, -, -, -, -, -, -, hall⟩ := shown_remainderTest
  intro b hb
  obtain ⟨hlive, hspelled⟩ := hall b hb
  exact ⟨hlive, (hg.plainlySpelled_iff hlive).mpr hspelled⟩

/-- The first of two conditions is a remainder and has no parentheses around it, the other has. -/
theorem branches_enclosed_iff_remainderTest : remainderTest.IsTree ∧
    remainderTest.kind 10 = .ifElse 8 9 (some 5) ∧
    (∃ rest last, remainderTest.branches 10 = (8, 9) :: rest ∧ remainderTest.Closes "  " last ∧
      remainderTest.lines "  " 10 = remainderTest.branchLines "  " "if " (8, 9) ++
        (rest.flatMap (remainderTest.branchLines "  " "\x7d else if ") ++ last)) ∧
    remainderTest.lines "  " 10 =
      ["if mod(a, b) \x7b", "\x7d else if (a < b) \x7b", "\x7d else \x7b", "\x7d"] ∧
    remainderTest.branches 10 = [(8, 9), (2, 3)] ∧
    ¬ Enclosed (remainderTest.condition "  " 8) ∧ Enclosed (remainderTest.condition "  " 2) := by
  obtain ⟨hg, hi, hk, hbranches, htext, hrem, hcompare, -⟩ := shown_remainderTest
  obtain ⟨hlines, hiff⟩ := branches_enclosed_iff hg "  " hi hk
  have hplain := plainlySpelled_remainderTest
  rw [hbranches] at hiff hplain
  have hbare := hiff (8, 9) (by simp) (hplain _ (by simp)).2
  have hless := hiff (2, 3) (by simp) (hplain _ (by simp)).2
  refine ⟨hg, hk, hlines, htext, hbranches, fun he => ?_, hless.mpr hcompare⟩
  rw [hbare.mp he] at hrem
  cases hrem

/-- **A remainder as a condition** has no parentheses around it. -/
theorem branches_remainder_bare :
    ¬ ∀ g : Graph, g.IsTree → ∀ (indent : String), ∀ i ∈ g.live, ∀ b ∈ g.branches i,
      g.PlainlySpelled b.1 → Enclosed (g.condition indent b.1) := by
  intro h
  obtain ⟨hg, hi, -, hbranches, -, hrem, -, -⟩ := shown_remainderTest
  have hb : (8, 9) ∈ remainderTest.branches 10 := hbranches ▸ List.mem_cons_self
  obtain ⟨hlive, hplain⟩ := plainlySpelled_remainderTest _ hb
  have he := h remainderTest hg "  " 10 hi _ hb hplain
  rw [(enclosed_condition_iff hg "  " hlive hplain).mp he] at hrem
  cases hrem

end ShaderScript
