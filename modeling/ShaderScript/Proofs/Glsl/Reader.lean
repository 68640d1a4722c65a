import Mathlib.Order.Filter.AtTopBot.Basic
import ShaderScript.Proofs.Glsl.Expr

/-!
# Reading expressions

A reader of expressions in the shading language. It reads the operators before an operand first,
then the operand, then whatever follows it without a space, and last an assignment.

* `readExpr`, `readUnary`, `readSuffixes`, `readItems`, `readParen`: the reader, to a depth.
* `Reads`: what the reader finds at every sufficient depth, with one rule for each of its branches.
* `Reads.unique`: it finds one thing only.
-/

namespace ShaderScript

namespace Glsl

open Expr Filter

/-! ## The reader -/

/-- The word between two spaces ahead, and what follows it. -/
def opAhead? : List Char → Option (String × List Char)
  | ' ' :: cs =>
    match cs.dropWhile (· != ' ') with
    | _ :: rest => some (String.ofList (cs.takeWhile (· != ' ')), rest)
    | [] => none
  | _ => none

/-- The assignment operator ahead, and what follows it. -/
def assignAhead? (cs : List Char) : Option (AssignOp × List Char) :=
  match opAhead? cs with
  | some (w, rest) => (AssignOp.ofSource? w).map fun op => (op, rest)
  | none => none

/-- What a word stands for: a number, a truth value or a name. -/
def wordExpr (word : List Char) : Expr :=
  if word.all Char.isDigit then .number (String.ofList word)
  else if word = "true".toList then .bool true
  else if word = "false".toList then .bool false
  else .ident (String.ofList word)

/-- Reads a word. -/
def readWord (cs : List Char) : Expr × List Char :=
  (wordExpr (cs.takeWhile wordChar), cs.dropWhile wordChar)

/-- What stands between parentheses: an expression on its own, or something that has parentheses by
itself. -/
inductive Paren where
  | group (e : Expr)
  | whole (e : Expr)

mutual

/-- Reads an expression. -/
@[simp] def readExpr : List Char → Nat → Option (Expr × List Char)
  | _, 0 => none
  | cs, n + 1 =>
    match readUnary true cs n with
    | none => none
    | some (left, rest) =>
      match assignAhead? rest with
      | none => some (left, rest)
      | some (op, rest) =>
        (readExpr rest n).map fun (right, rest) => (.assign op left right, rest)

/-- Reads an operand with the operators before it, and with what follows it if asked to. -/
@[simp] def readUnary : Bool → List Char → Nat → Option (Expr × List Char)
  | _, _, 0 => none
  | _, [], _ + 1 => none
  | tail, c :: cs, n + 1 =>
    if c = '+' then
      (readUnary true cs.tail n).map fun (a, rest) => (.update .increment true a, rest)
    else if c = '-' ∧ cs.head? = some '-' then
      (readUnary true cs.tail n).map fun (a, rest) => (.update .decrement true a, rest)
    else if c = '-' then readSigned .neg tail cs n
    else if c = '!' then readSigned .not tail cs n
    else if c = '(' then
      match readParen cs n with
      | some (.whole e, rest) => if tail then readSuffixes e rest n else some (e, rest)
      | _ => none
    else
      let (e, rest) := readWord (c :: cs)
      if tail then readSuffixes e rest n else some (e, rest)

/-- Reads what follows a sign. -/
@[simp] def readSigned : UnaryOp → Bool → List Char → Nat → Option (Expr × List Char)
  | _, _, _, 0 => none
  | op, tail, cs, n + 1 =>
    match if cs.head? = some '(' then readParen cs.tail n else none with
    | some (.group e, rest) =>
      if tail then readSuffixes (.unary op e) rest n else some (.unary op e, rest)
    | _ => (readUnary true cs n).map fun (a, rest) => (.unary op a, rest)

/-- Reads what follows an operand without a space. -/
@[simp] def readSuffixes : Expr → List Char → Nat → Option (Expr × List Char)
  | _, _, 0 => none
  | e, [], _ + 1 => some (e, [])
  | e, c :: cs, n + 1 =>
    if c = '(' then
      if cs.head? = some ')' then readSuffixes (.call e []) cs.tail n
      else match readItems cs n with
        | some (args, rest) => readSuffixes (.call e args) rest.tail n
        | none => none
    else if c = '.' then
      match readUnary false cs n with
      | some (p, rest) => readSuffixes (.field e p) rest n
      | none => none
    else if c = '[' then
      match readExpr cs n with
      | some (p, rest) => readSuffixes (.index e p) rest.tail n
      | none => none
    else if c = '+' then readSuffixes (.update .increment false e) cs.tail n
    else if c = '-' then readSuffixes (.update .decrement false e) cs.tail n
    else some (e, c :: cs)

/-- Reads expressions with commas between them. -/
@[simp] def readItems : List Char → Nat → Option (List Expr × List Char)
  | _, 0 => none
  | cs, n + 1 =>
    match readExpr cs n with
    | none => none
    | some (e, rest) =>
      if rest.head? = some ',' then
        (readItems rest.tail.tail n).map fun (es, rest) => (e :: es, rest)
      else some ([e], rest)

/-- Reads what stands between parentheses, after the first. -/
@[simp] def readParen : List Char → Nat → Option (Paren × List Char)
  | _, 0 => none
  | cs, n + 1 =>
    if cs.head? = some ')' then some (.whole (.sequence []), cs.tail)
    else match readItems cs n with
      | none => none
      | some ([e], rest) =>
        match opAhead? rest with
        | none => some (.group e, rest.tail)
        | some (w, rest) =>
          match readExpr rest n with
          | none => none
          | some (f, rest) =>
            match BinaryOp.ofSource? w with
            | some op => some (.whole (.binary op e f), rest.tail)
            | none =>
              match opAhead? rest with
              | none => none
              | some (_, rest) =>
                (readExpr rest n).map fun (g, rest) => (.whole (.conditional e f g), rest.tail)
      | some (es, rest) => some (.whole (.sequence es), rest.tail)

end

/-! ## What the reader finds -/

/-- At every sufficient depth the reader finds this. -/
def Reads {α : Type} (f : Nat → Option α) (a : α) : Prop := ∀ᶠ n in atTop, f n = some a

theorem Reads.unique {α : Type} {f : Nat → Option α} {a b : α} (ha : Reads f a) (hb : Reads f b) :
    a = b := by
  obtain ⟨n, ha, hb⟩ := (ha.and hb).exists
  exact Option.some.inj (ha.symm.trans hb)

theorem Reads.of_succ {α : Type} {f : Nat → Option α} {a : α}
    (h : ∀ᶠ n in atTop, f (n + 1) = some a) : Reads f a := by
  rw [Reads, ← map_add_atTop_eq_nat 1]
  exact h

/-- What is found once an operand has been read, with what follows it if asked to. -/
def Continues (tail : Bool) (e : Expr) (rest : List Char) (r : Expr × List Char) : Prop :=
  Reads (fun n => if tail then readSuffixes e rest n else some (e, rest)) r

section Rules

variable {cs rest rest' rest'' : List Char} {e f g : Expr} {tail : Bool} {r : Expr × List Char}

theorem continues_true : Continues true e rest r ↔ Reads (readSuffixes e rest) r := .rfl

theorem continues_false : Continues false e rest (e, rest) := .of_forall fun _ => rfl

theorem reads_expr (h : Reads (readUnary true cs) (e, rest)) (hop : assignAhead? rest = none) :
    Reads (readExpr cs) (e, rest) := by
  refine .of_succ ?_
  filter_upwards [h] with n hn
  simp only [readExpr, hn, hop]

theorem reads_assign {op : AssignOp} (h : Reads (readUnary true cs) (e, rest))
    (hop : assignAhead? rest = some (op, rest')) (hf : Reads (readExpr rest') (f, rest'')) :
    Reads (readExpr cs) (.assign op e f, rest'') := by
  refine .of_succ ?_
  filter_upwards [h, hf] with n hn hf
  simp only [readExpr, hn, hop, hf, Option.map_some]

theorem reads_update {op : UpdateOp} (h : Reads (readUnary true cs) (e, rest)) :
    Reads (readUnary tail (op.glsl.toList ++ cs)) (.update op true e, rest) := by
  refine .of_succ ?_
  filter_upwards [h] with n hn
  cases op with
  | increment =>
    change readUnary tail ('+' :: '+' :: cs) (n + 1) = _
    rw [readUnary, if_pos rfl, List.tail_cons, hn]
    rfl
  | decrement =>
    change readUnary tail ('-' :: '-' :: cs) (n + 1) = _
    rw [readUnary, if_neg (by decide), if_pos ⟨rfl, rfl⟩, List.tail_cons, hn]
    rfl

theorem readUnary_sign {op : UnaryOp} (hop : op ≠ .plus) (hcs : cs.head? ≠ some op.sign) (n : Nat) :
    readUnary tail (op.sign :: cs) (n + 1) = readSigned op tail cs n := by
  cases op with
  | plus => exact absurd rfl hop
  | neg =>
    change readUnary tail ('-' :: cs) (n + 1) = _
    rw [readUnary, if_neg (by decide), if_neg fun hc => hcs hc.2, if_pos rfl]
  | not =>
    change readUnary tail ('!' :: cs) (n + 1) = _
    rw [readUnary, if_neg (by decide), if_neg fun hc => absurd hc.1 (by decide),
      if_neg (by decide), if_pos rfl]

theorem readUnary_paren (n : Nat) : readUnary tail ('(' :: cs) (n + 1) =
    match readParen cs n with
    | some (.whole e, rest) => if tail then readSuffixes e rest n else some (e, rest)
    | _ => none := by
  rw [readUnary, if_neg (by decide), if_neg fun hc => absurd hc.1 (by decide),
    if_neg (by decide), if_neg (by decide), if_pos rfl]

theorem reads_sign {op : UnaryOp} (hop : op ≠ .plus) (hcs : cs.head? ≠ some op.sign)
    (h : Reads (readUnary true cs) (e, rest)) :
    Reads (readUnary tail (op.sign :: cs)) (.unary op e, rest) := by
  have hsucc : ∀ᶠ n in atTop, readUnary true cs (n + 1) = some (e, rest) :=
    (tendsto_add_atTop_nat 1).eventually h
  refine .of_succ (Reads.of_succ ?_)
  filter_upwards [h, hsucc] with n hn hnext
  rw [readUnary_sign hop hcs, readSigned, hn]
  split
  · -- what the operand itself has in parentheses is no group
    next f rest' hf =>
      split_ifs at hf with hhead
      obtain ⟨cs', rfl⟩ := List.head?_eq_some_iff.mp hhead
      rw [readUnary_paren, show readParen cs' n = _ from hf] at hnext
      cases hnext
  · rfl

theorem reads_sign_group {op : UnaryOp} (hop : op ≠ .plus)
    (h : Reads (readParen cs) (.group e, rest)) (hr : Continues tail (.unary op e) rest r) :
    Reads (readUnary tail (op.sign :: '(' :: cs)) r := by
  have hcs : ('(' :: cs).head? ≠ some op.sign := by
    cases op <;> simp [UnaryOp.sign]
  refine .of_succ (Reads.of_succ ?_)
  filter_upwards [h, hr] with n hn hr
  rw [readUnary_sign hop hcs, readSigned, List.head?_cons, if_pos rfl, List.tail_cons, hn]
  exact hr

theorem reads_paren (h : Reads (readParen cs) (.whole e, rest)) (hr : Continues tail e rest r) :
    Reads (readUnary tail ('(' :: cs)) r := by
  refine .of_succ ?_
  filter_upwards [h, hr] with n hn hr
  rw [readUnary_paren, hn]
  exact hr

theorem reads_word {c : Char} (hc : wordChar c = true) (h : readWord (c :: cs) = (e, rest))
    (hr : Continues tail e rest r) : Reads (readUnary tail (c :: cs)) r := by
  have hne : ∀ d, wordChar d = false → c ≠ d := by
    rintro d hd rfl
    rw [hc] at hd
    cases hd
  refine .of_succ ?_
  filter_upwards [hr] with n hr
  rw [readUnary, if_neg (hne '+' (by decide)), if_neg fun h => hne '-' (by decide) h.1,
    if_neg (hne '-' (by decide)), if_neg (hne '!' (by decide)), if_neg (hne '(' (by decide)), h]
  exact hr

/-! ## Suffixes -/

theorem reads_call_nil (h : Reads (readSuffixes (.call e []) rest) r) :
    Reads (readSuffixes e ('(' :: ')' :: rest)) r := by
  refine .of_succ ?_
  filter_upwards [h] with n hn
  rw [readSuffixes, if_pos rfl, List.head?_cons, if_pos rfl, List.tail_cons, hn]

theorem reads_call {args : List Expr} (hcs : cs.head? ≠ some ')')
    (ha : Reads (readItems cs) (args, ')' :: rest))
    (h : Reads (readSuffixes (.call e args) rest) r) :
    Reads (readSuffixes e ('(' :: cs)) r := by
  refine .of_succ ?_
  filter_upwards [ha, h] with n ha hn
  rw [readSuffixes, if_pos rfl, if_neg hcs, ha]
  exact hn

theorem reads_field (hp : Reads (readUnary false cs) (f, rest))
    (h : Reads (readSuffixes (.field e f) rest) r) : Reads (readSuffixes e ('.' :: cs)) r := by
  refine .of_succ ?_
  filter_upwards [hp, h] with n hp hn
  rw [readSuffixes, if_neg (by decide), if_pos rfl, hp]
  exact hn

theorem reads_index (hp : Reads (readExpr cs) (f, ']' :: rest))
    (h : Reads (readSuffixes (.index e f) rest) r) : Reads (readSuffixes e ('[' :: cs)) r := by
  refine .of_succ ?_
  filter_upwards [hp, h] with n hp hn
  rw [readSuffixes, if_neg (by decide), if_neg (by decide), if_pos rfl, hp]
  exact hn

theorem reads_update_after {op : UpdateOp} (h : Reads (readSuffixes (.update op false e) rest) r) :
    Reads (readSuffixes e (op.glsl.toList ++ rest)) r := by
  refine .of_succ ?_
  filter_upwards [h] with n hn
  cases op with
  | increment =>
    change readSuffixes e ('+' :: '+' :: rest) (n + 1) = _
    rw [readSuffixes, if_neg (by decide), if_neg (by decide), if_neg (by decide), if_pos rfl]
    exact hn
  | decrement =>
    change readSuffixes e ('-' :: '-' :: rest) (n + 1) = _
    rw [readSuffixes, if_neg (by decide), if_neg (by decide), if_neg (by decide),
      if_neg (by decide), if_pos rfl]
    exact hn

/-- No suffix follows. -/
def Halts (rest : List Char) : Prop := ∀ c ∈ rest.head?, c ∈ [' ', ')', ']', ',']

theorem reads_halt (h : Halts rest) : Reads (readSuffixes e rest) (e, rest) := by
  refine .of_succ (.of_forall fun n => ?_)
  cases rest with
  | nil => rfl
  | cons c cs =>
    have hc := h c rfl
    have hne : ∀ d, d ∉ [' ', ')', ']', ','] → c ≠ d := by
      rintro d hd rfl
      exact hd hc
    rw [readSuffixes, if_neg (hne '(' (by decide)), if_neg (hne '.' (by decide)),
      if_neg (hne '[' (by decide)), if_neg (hne '+' (by decide)), if_neg (hne '-' (by decide))]

/-! ## Lists and parentheses -/

theorem reads_item (h : Reads (readExpr cs) (e, rest)) (hr : rest.head? ≠ some ',') :
    Reads (readItems cs) ([e], rest) := by
  refine .of_succ ?_
  filter_upwards [h] with n hn
  simp only [readItems, hn, if_neg hr]

theorem reads_items {es : List Expr} (h : Reads (readExpr cs) (e, ',' :: ' ' :: rest))
    (hes : Reads (readItems rest) (es, rest')) : Reads (readItems cs) (e :: es, rest') := by
  refine .of_succ ?_
  filter_upwards [h, hes] with n hn hes
  simp only [readItems, hn, List.head?_cons, if_true, List.tail_cons, hes, Option.map_some]

theorem reads_unit : Reads (readParen (')' :: rest)) (.whole (.sequence []), rest) :=
  .of_succ (.of_forall fun _ => rfl)

theorem reads_group (hcs : cs.head? ≠ some ')') (h : Reads (readItems cs) ([e], ')' :: rest)) :
    Reads (readParen cs) (.group e, rest) := by
  refine .of_succ ?_
  filter_upwards [h] with n hn
  rw [readParen, if_neg hcs, hn]
  rfl

theorem reads_tuple {a b : Expr} {es : List Expr} (hcs : cs.head? ≠ some ')')
    (h : Reads (readItems cs) (a :: b :: es, ')' :: rest)) :
    Reads (readParen cs) (.whole (.sequence (a :: b :: es)), rest) := by
  refine .of_succ ?_
  filter_upwards [h] with n hn
  rw [readParen, if_neg hcs, hn]
  rfl

theorem reads_binary {w : String} {op : BinaryOp} (hcs : cs.head? ≠ some ')')
    (h : Reads (readItems cs) ([e], rest)) (hw : opAhead? rest = some (w, rest'))
    (hop : BinaryOp.ofSource? w = some op) (hf : Reads (readExpr rest') (f, ')' :: rest'')) :
    Reads (readParen cs) (.whole (.binary op e f), rest'') := by
  refine .of_succ ?_
  filter_upwards [h, hf] with n hn hf
  rw [readParen, if_neg hcs, hn]
  simp only [hw, hf, hop, List.tail_cons]

theorem reads_conditional {rest₁ rest₂ rest₃ rest₄ : List Char} (hcs : cs.head? ≠ some ')')
    (h : Reads (readItems cs) ([e], rest)) (hw : opAhead? rest = some ("?", rest₁))
    (hf : Reads (readExpr rest₁) (f, rest₂)) (hw' : opAhead? rest₂ = some (":", rest₃))
    (hg : Reads (readExpr rest₃) (g, ')' :: rest₄)) :
    Reads (readParen cs) (.whole (.conditional e f g), rest₄) := by
  have hnone : BinaryOp.ofSource? "?" = none := rfl
  refine .of_succ ?_
  filter_upwards [h, hf, hg] with n hn hf hg
  rw [readParen, if_neg hcs, hn]
  simp only [hw, hf, hnone, hw', hg, Option.map_some, List.tail_cons]

end Rules

end Glsl

end ShaderScript
