import ShaderScript.Glsl.Text
import ShaderScript.Proofs.Graph.Preorder

/-!
# Expressions as trees

The text of an expression depends on the tree below its node and not on how nodes are numbered.

* `Expr`: an expression as a tree.
* `Expr.text`: its text, put together from the texts of its children.
* `Expr.norm`: the tree without what the text does not show.
* `Graph.Unfolds`: the tree below a node that has no types.
* **`Graph.render_of_unfolds`**: the text of a node is the text of its tree.
* `Graph.exists_unfolds`: every tree lies below some node.
-/

namespace ShaderScript

/-- The sign that a unary operator is written with. -/
def UnaryOp.sign : UnaryOp → Char
  | .not => '!'
  | _ => '-'

/-- An expression as a tree. -/
inductive Expr where
  | ident (name : String)
  | number (raw : String)
  | bool (value : Bool)
  | binary (op : BinaryOp) (left right : Expr)
  | assign (op : AssignOp) (left right : Expr)
  | unary (op : UnaryOp) (argument : Expr)
  | update (op : UpdateOp) (leading : Bool) (argument : Expr)
  | conditional (test consequent alternate : Expr)
  | call (callee : Expr) (args : List Expr)
  | field (object property : Expr)
  | index (object property : Expr)
  | array (elements : List Expr)
  | sequence (exprs : List Expr)
deriving Inhabited

namespace Expr

/-! ## Roots and children -/

/-- The subexpressions right below the root. -/
def children : Expr → List Expr
  | binary _ left right | assign _ left right => [left, right]
  | unary _ argument | update _ _ argument => [argument]
  | conditional test consequent alternate => [test, consequent, alternate]
  | call callee args => callee :: args
  | field object property | index object property => [object, property]
  | array elements => elements
  | sequence exprs => exprs
  | ident _ | number _ | bool _ => []

/-- The same root over other children, as many as there are. -/
def rebuild : Expr → List Expr → Expr
  | binary op _ _, [left, right] => binary op left right
  | assign op _ _, [left, right] => assign op left right
  | unary op _, [argument] => unary op argument
  | update op leading _, [argument] => update op leading argument
  | conditional _ _ _, [test, consequent, alternate] => conditional test consequent alternate
  | call _ _, callee :: args => call callee args
  | field _ _, [object, property] => field object property
  | index _ _, [object, property] => index object property
  | array _, elements => array elements
  | sequence _, exprs => sequence exprs
  | e, _ => e

/-- The root as a node over other nodes, as many as there are children. -/
def kind : Expr → List Id → Kind
  | ident name, _ => .ident name
  | number raw, _ => .number raw
  | bool value, _ => .bool value
  | binary op _ _, [left, right] => .binary op left right
  | assign op _ _, [left, right] => .assign op left right
  | unary op _, [argument] => .unary op argument
  | update op leading _, [argument] => .update op leading argument
  | conditional _ _ _, [test, consequent, alternate] => .conditional test consequent alternate
  | call _ _, callee :: args => .call callee args
  | field _ _, [object, property] => .field object property
  | index _ _, [object, property] => .index object property
  | array _, elements => .array elements
  | sequence _, exprs => .sequence exprs
  | _, _ => .this

/-- The text of the root around the texts of its children. -/
def assemble : Expr → List String → String
  | ident name, _ => name
  | number raw, _ => raw
  | bool value, _ => if value then "true" else "false"
  | binary op _ _, [left, right] => Glsl.binaryText op left right
  | assign op _ _, [left, right] => left ++ " " ++ op.glsl ++ " " ++ right
  | unary op _, [argument] => Glsl.unaryText op argument
  | update op leading _, [argument] => Glsl.updateText op leading argument
  | conditional _ _ _, [test, consequent, alternate] =>
    "(" ++ test ++ " ? " ++ consequent ++ " : " ++ alternate ++ ")"
  | call _ _, callee :: args => callee ++ "(" ++ Glsl.commaList args ++ ")"
  | field _ _, [object, property] => object ++ "." ++ property
  | index _ _, [object, property] => Glsl.indexText none none object property
  | array _, elements =>
    Glsl.constructorName none elements.length ++ "(" ++ Glsl.commaList elements ++ ")"
  | sequence _, [e] => e
  | sequence _, exprs => "(" ++ Glsl.commaList exprs ++ ")"
  | _, _ => ""

theorem sizeOf_lt_of_mem_children {c e : Expr} (h : c ∈ e.children) : sizeOf c < sizeOf e := by
  cases e with
  | binary | assign | unary | update | conditional | field | index =>
    simp only [children, List.mem_cons, List.not_mem_nil, or_false] at h
    rcases h with rfl | rfl | rfl <;> simp only [binary.sizeOf_spec, assign.sizeOf_spec,
      unary.sizeOf_spec, update.sizeOf_spec, conditional.sizeOf_spec, field.sizeOf_spec,
      index.sizeOf_spec] <;> omega
  | call callee args =>
    rw [call.sizeOf_spec]
    rcases List.mem_cons.mp h with rfl | h
    · omega
    · have := List.sizeOf_lt_of_mem h
      omega
  | array elements =>
    rw [array.sizeOf_spec]
    have := List.sizeOf_lt_of_mem (show c ∈ elements from h)
    omega
  | sequence exprs =>
    rw [sequence.sizeOf_spec]
    have := List.sizeOf_lt_of_mem (show c ∈ exprs from h)
    omega
  | ident | number | bool => cases h

/-- What holds of a tree whenever it holds of all its children holds of every tree. -/
@[elab_as_elim, induction_eliminator]
theorem induct {motive : Expr → Prop}
    (node : ∀ e, (∀ c ∈ e.children, motive c) → motive e) (e : Expr) : motive e :=
  node e fun c _ => induct node c
termination_by sizeOf e
decreasing_by exact sizeOf_lt_of_mem_children ‹_›

/-- Something that holds of a tree and of all trees in it. -/
inductive Every (p : Expr → Prop) : Expr → Prop
  | intro {e : Expr} : p e → (∀ c ∈ e.children, Every p c) → Every p e

theorem Every.root {p : Expr → Prop} {e : Expr} (h : e.Every p) : p e := by
  cases h
  assumption

theorem Every.child {p : Expr → Prop} {c e : Expr} (h : e.Every p) (hc : c ∈ e.children) :
    c.Every p := by
  cases h with
  | intro _ hall => exact hall c hc

theorem Every.mono {p q : Expr → Prop} {e : Expr} (h : e.Every p) (hpq : ∀ e, p e → q e) :
    e.Every q := by
  induction h with
  | intro h _ ih => exact .intro (hpq _ h) ih

theorem every_of_leaf {p : Expr → Prop} {e : Expr} (h : p e) (he : e.children = []) : e.Every p :=
  .intro h fun c hc => by rw [he] at hc; cases hc

theorem every_of_one {p : Expr → Prop} {a e : Expr} (h : p e) (he : e.children = [a])
    (ha : a.Every p) : e.Every p := by
  refine .intro h fun c hc => ?_
  rw [he] at hc
  rwa [List.mem_singleton.mp hc]

theorem every_of_two {p : Expr → Prop} {a b e : Expr} (h : p e) (he : e.children = [a, b])
    (ha : a.Every p) (hb : b.Every p) : e.Every p := by
  refine .intro h fun c hc => ?_
  rw [he] at hc
  rcases List.mem_cons.mp hc with rfl | hc
  · exact ha
  · rwa [List.mem_singleton.mp hc]

/-! ## Other children -/

theorem children_rebuild {e : Expr} {cs : List Expr} (h : cs.length = e.children.length) :
    (e.rebuild cs).children = cs := by
  cases e with
  | ident | number | bool => exact (List.eq_nil_of_length_eq_zero h).symm
  | array | sequence => rfl
  | unary | update =>
    obtain ⟨a, rfl⟩ := List.length_eq_one_iff.mp h
    rfl
  | binary | assign | field | index =>
    obtain ⟨a, b, rfl⟩ := List.length_eq_two.mp h
    rfl
  | conditional =>
    obtain ⟨a, b, c, rfl⟩ := List.length_eq_three.mp h
    rfl
  | call callee args =>
    cases cs with
    | nil => cases h
    | cons f as => rfl

/-- Other children do not change what the root puts around texts. -/
theorem assemble_rebuild {e : Expr} {cs : List Expr} {ts : List String}
    (h : cs.length = e.children.length) (ht : ts.length = cs.length) :
    (e.rebuild cs).assemble ts = e.assemble ts := by
  cases e with
  | ident | number | bool | array => rfl
  | sequence => match ts with
    | [] | [_] | _ :: _ :: _ => rfl
  | unary | update =>
    obtain ⟨a, rfl⟩ := List.length_eq_one_iff.mp h
    obtain ⟨t, rfl⟩ := List.length_eq_one_iff.mp ht
    rfl
  | binary | assign | field | index =>
    obtain ⟨a, b, rfl⟩ := List.length_eq_two.mp h
    obtain ⟨t, u, rfl⟩ := List.length_eq_two.mp ht
    rfl
  | conditional =>
    obtain ⟨a, b, c, rfl⟩ := List.length_eq_three.mp h
    obtain ⟨t, u, v, rfl⟩ := List.length_eq_three.mp ht
    rfl
  | call callee args =>
    cases cs with
    | nil => cases h
    | cons f as =>
      cases ts with
      | nil => cases ht
      | cons t ts => rfl

theorem rebuild_children (e : Expr) : e.rebuild e.children = e := by
  cases e <;> rfl

theorem children_kind {e : Expr} {ids : List Id} (h : ids.length = e.children.length) :
    (e.kind ids).children = ids := by
  cases e with
  | ident | number | bool => exact (List.eq_nil_of_length_eq_zero h).symm
  | array | sequence => rfl
  | unary | update =>
    obtain ⟨a, rfl⟩ := List.length_eq_one_iff.mp h
    rfl
  | binary | assign | field | index =>
    obtain ⟨a, b, rfl⟩ := List.length_eq_two.mp h
    rfl
  | conditional =>
    obtain ⟨a, b, c, rfl⟩ := List.length_eq_three.mp h
    rfl
  | call callee args =>
    cases ids with
    | nil => cases h
    | cons f as => rfl

/-! ## Text -/

/-- The text of an expression. -/
def text (e : Expr) : String := e.assemble (e.children.attach.map fun c => c.1.text)
termination_by sizeOf e
decreasing_by exact sizeOf_lt_of_mem_children c.2

theorem text_eq (e : Expr) : e.text = e.assemble (e.children.map text) := by
  rw [text, List.attach_map_val]

theorem text_rebuild {e : Expr} {cs : List Expr} (h : cs.map text = e.children.map text) :
    (e.rebuild cs).text = e.text := by
  have hlen : cs.length = e.children.length := by
    have := congrArg List.length h
    rwa [List.length_map, List.length_map] at this
  rw [text_eq, children_rebuild hlen, assemble_rebuild hlen (List.length_map _), h, ← text_eq]

/-! ## What the text does not show -/

/-- Writes the root the way its text does: without a plus sign and without parentheses around one
expression, with plain comparisons, and with calls for remainders and array literals. -/
def plain : Expr → Expr
  | binary .rem left right => call (ident "mod") [left, right]
  | binary .strictEq left right => binary .eq left right
  | binary .strictNotEq left right => binary .notEq left right
  | unary .plus argument => argument
  | array elements => call (ident ("vec" ++ toString elements.length)) elements
  | sequence [e] => e
  | e => e

/-- The tree without what its text does not show. -/
def norm (e : Expr) : Expr := (e.rebuild (e.children.attach.map fun c => c.1.norm)).plain
termination_by sizeOf e
decreasing_by exact sizeOf_lt_of_mem_children c.2

theorem norm_eq (e : Expr) : e.norm = (e.rebuild (e.children.map norm)).plain := by
  rw [norm, List.attach_map_val]

theorem text_plain (e : Expr) : e.plain.text = e.text := by
  unfold plain
  split
  case h_1 l r =>
    simp [text_eq (call _ _), text_eq (ident _), text_eq (binary _ _ _), children, assemble,
      Glsl.binaryText, Glsl.commaList, String.append_assoc]
  case h_2 l r => rw [text_eq, text_eq (binary _ _ _)]; rfl
  case h_3 l r => rw [text_eq, text_eq (binary _ _ _)]; rfl
  case h_4 a => rw [text_eq (unary _ _)]; rfl
  case h_5 es =>
    simp [text_eq (call _ _), text_eq (ident _), text_eq (array _), children, assemble,
      Glsl.constructorName]
  case h_6 a => rw [text_eq (sequence _)]; rfl
  case h_7 => rfl

/-- **The text shows no more than the normal form.** -/
theorem text_norm (e : Expr) : e.norm.text = e.text := by
  induction e with
  | node e ih =>
    rw [norm_eq, text_plain, text_rebuild]
    rw [List.map_map]
    exact List.map_congr_left ih

/-- A root that is written the way its text is. -/
def Plain : Expr → Prop
  | binary op _ _ => op ≠ .rem ∧ op ≠ .strictEq ∧ op ≠ .strictNotEq
  | unary op _ => op ≠ .plus
  | array _ => False
  | sequence exprs => exprs.length ≠ 1
  | _ => True

theorem plain_eq_self {e : Expr} (h : e.Plain) : e.plain = e := by
  unfold plain
  split
  case h_1 => exact absurd rfl h.1
  case h_2 => exact absurd rfl h.2.1
  case h_3 => exact absurd rfl h.2.2
  case h_4 => exact absurd rfl h
  case h_5 => exact h.elim
  case h_6 => exact absurd rfl h
  case h_7 => rfl

theorem norm_eq_self {e : Expr} (h : e.Every Plain) : e.norm = e := by
  induction e with
  | node e ih =>
    have hc : e.children.map norm = e.children := by
      conv_rhs => rw [← List.map_id e.children]
      exact List.map_congr_left fun c hc => ih c hc (h.child hc)
    rw [norm_eq, hc, rebuild_children, plain_eq_self h.root]

/-! ## Names and numbers -/

/-- A letter, a digit or an underscore; beyond ASCII every character counts as a letter. -/
def wordChar (c : Char) : Bool := c.isAlphanum || c == '_' || decide (128 ≤ c.toNat)

/-- A word that does not start with a digit and is no truth value. -/
structure IsName (s : String) : Prop where
  word : ∀ c ∈ s.toList, wordChar c = true
  start : ∃ c, s.toList.head? = some c ∧ c.isDigit = false
  ne_true : s ≠ "true"
  ne_false : s ≠ "false"

/-- A root whose name or number is well formed. -/
def Legible : Expr → Prop
  | ident name => IsName name
  | number raw => raw ≠ "" ∧ ∀ c ∈ raw.toList, c.isDigit = true
  | _ => True

/-- A root that is written the way its text is, with a well-formed name or number. -/
def Proper (e : Expr) : Prop := e.Plain ∧ e.Legible

theorem isName_mod : IsName "mod" :=
  ⟨List.all_eq_true.mp rfl, ⟨'m', rfl, rfl⟩, by decide, by decide⟩

theorem isName_vec (n : Nat) : IsName ("vec" ++ toString n) := by
  have hlist : ("vec" ++ toString n).toList = 'v' :: 'e' :: 'c' :: Nat.toDigits 10 n := by
    simp
  refine ⟨fun c hc => ?_, ⟨'v', by rw [hlist]; rfl, by decide⟩, fun he => ?_, fun he => ?_⟩
  · rw [hlist] at hc
    simp only [List.mem_cons] at hc
    rcases hc with rfl | rfl | rfl | hc
    · decide
    · decide
    · decide
    · have hd := Nat.isDigit_of_mem_toDigits (by decide) (by decide) hc
      simp [wordChar, Char.isAlphanum, hd]
  · have := congrArg String.toList he
    rw [hlist] at this
    cases this
  · have := congrArg String.toList he
    rw [hlist] at this
    cases this

theorem every_proper_plain {e : Expr} (h : e.Legible) (hc : ∀ c ∈ e.children, c.Every Proper) :
    e.plain.Every Proper := by
  unfold plain
  split
  case h_1 l r =>
    refine .intro ⟨trivial, trivial⟩ fun c hm => ?_
    rcases List.mem_cons.mp hm with rfl | hm
    · exact every_of_leaf ⟨trivial, isName_mod⟩ rfl
    · exact hc c hm
  case h_2 l r => exact .intro ⟨⟨nofun, nofun, nofun⟩, trivial⟩ hc
  case h_3 l r => exact .intro ⟨⟨nofun, nofun, nofun⟩, trivial⟩ hc
  case h_4 a => exact hc a (List.mem_singleton.mpr rfl)
  case h_5 es =>
    refine .intro ⟨trivial, trivial⟩ fun c hm => ?_
    rcases List.mem_cons.mp hm with rfl | hm
    · exact every_of_leaf ⟨trivial, isName_vec _⟩ rfl
    · exact hc c hm
  case h_6 a => exact hc a (List.mem_singleton.mpr rfl)
  case h_7 _ h₁ h₂ h₃ h₄ h₅ h₆ =>
    refine .intro ⟨?_, h⟩ hc
    cases e with
    | binary op l r =>
      refine ⟨?_, ?_, ?_⟩ <;> rintro rfl
      · exact h₁ l r rfl
      · exact h₂ l r rfl
      · exact h₃ l r rfl
    | unary op a =>
      rintro rfl
      exact h₄ a rfl
    | array es => exact h₅ es rfl
    | sequence es =>
      intro hlen
      obtain ⟨a, rfl⟩ := List.length_eq_one_iff.mp hlen
      exact h₆ a rfl
    | _ => trivial

/-- Whether a root is plain and legible does not depend on its children. -/
theorem root_rebuild {e : Expr} {cs : List Expr} (h : cs.length = e.children.length) :
    ((e.rebuild cs).Legible ↔ e.Legible) ∧ ((e.rebuild cs).Plain ↔ e.Plain) := by
  cases e with
  | ident | number | bool | array => exact ⟨.rfl, .rfl⟩
  | sequence exprs =>
    refine ⟨.rfl, ?_⟩
    change cs.length ≠ 1 ↔ exprs.length ≠ 1
    rw [show cs.length = exprs.length from h]
  | unary | update =>
    obtain ⟨a, rfl⟩ := List.length_eq_one_iff.mp h
    exact ⟨.rfl, .rfl⟩
  | binary | assign | field | index =>
    obtain ⟨a, b, rfl⟩ := List.length_eq_two.mp h
    exact ⟨.rfl, .rfl⟩
  | conditional =>
    obtain ⟨a, b, c, rfl⟩ := List.length_eq_three.mp h
    exact ⟨.rfl, .rfl⟩
  | call callee args =>
    cases cs with
    | nil => cases h
    | cons f as => exact ⟨.rfl, .rfl⟩

/-- **A normal form is written the way its text is.** -/
theorem every_proper_norm {e : Expr} (h : e.Every Legible) : e.norm.Every Proper := by
  induction e with
  | node e ih =>
    have hlen : (e.children.map norm).length = e.children.length := List.length_map _
    rw [norm_eq]
    refine every_proper_plain ((root_rebuild hlen).1.mpr h.root) fun c hc => ?_
    rw [children_rebuild hlen] at hc
    obtain ⟨d, hd, rfl⟩ := List.mem_map.mp hc
    exact ih d hd (h.child hd)

end Expr

/-! ## Trees below nodes -/

namespace Graph

open Expr

/-- The tree below a node in which no node has a type. -/
inductive Unfolds (g : Graph) : Id → Expr → Prop
  | intro {i : Id} {e : Expr} (ids : List Id) : g.kind i = e.kind ids →
      ids.length = e.children.length → g.ty? i = none →
      (∀ p ∈ ids.zip e.children, Unfolds g p.1 p.2) → Unfolds g i e

variable {g : Graph} {i j : Id} {e : Expr}

theorem unfolds_leaf (hk : g.kind i = e.kind []) (hc : e.children = []) (hty : g.ty? i = none) :
    g.Unfolds i e := by
  refine .intro [] hk (by rw [hc]; rfl) hty fun p hp => ?_
  rw [List.zip_nil_left] at hp
  cases hp

theorem Unfolds.lt_size (h : g.Unfolds i e) : i < g.size := by
  cases h with
  | intro ids hk hlen _ _ =>
    refine lt_size_of_kind fun hd => ?_
    rw [hk] at hd
    cases e with
    | array | sequence => cases hd
    | ident | number | bool => cases hd
    | unary | update =>
      obtain ⟨a, rfl⟩ := List.length_eq_one_iff.mp hlen
      cases hd
    | binary | assign | field | index =>
      obtain ⟨a, b, rfl⟩ := List.length_eq_two.mp hlen
      cases hd
    | conditional =>
      obtain ⟨a, b, c, rfl⟩ := List.length_eq_three.mp hlen
      cases hd
    | call =>
      cases ids with
      | nil => cases hlen
      | cons f as => cases hd

theorem Unfolds.untyped (h : g.Unfolds i e) : g.ty? i = none := by
  cases h
  assumption

theorem Unfolds.child (h : g.Unfolds i e) (hj : j ∈ g.children i) :
    ∃ c ∈ e.children, g.Unfolds j c := by
  cases h with
  | intro ids hk hlen _ hall =>
    rw [Graph.children, hk, children_kind hlen] at hj
    obtain ⟨n, hn, rfl⟩ := List.getElem_of_mem hj
    have hn' : n < e.children.length := hlen ▸ hn
    refine ⟨e.children[n], List.getElem_mem hn', hall (ids[n], e.children[n]) ?_⟩
    exact List.mem_iff_getElem.mpr ⟨n, by simp [hn, hn'], by simp⟩

/-- A node further down has a tree that is smaller by as many steps. -/
theorem Unfolds.descend {d : Nat} (h : g.Unfolds i e) (hd : g.Below i d j) :
    ∃ c, g.Unfolds j c ∧ sizeOf c + d ≤ sizeOf e := by
  induction hd with
  | refl => exact ⟨e, h, le_rfl⟩
  | step _ hc ih =>
    obtain ⟨f, hf, hle⟩ := ih
    obtain ⟨c, hmem, hc⟩ := hf.child hc
    have hlt := sizeOf_lt_of_mem_children hmem
    exact ⟨c, hc, by omega⟩

theorem Unfolds.acyclic {d : Nat} (h : g.Unfolds i e) (hd : g.Below i (d + 1) i) : False := by
  -- going around once more would give the node a smaller tree
  induction hn : sizeOf e using Nat.strong_induction_on generalizing e with
  | _ n ih =>
    obtain ⟨c, hc, hle⟩ := h.descend hd
    exact ih (sizeOf c) (by omega) hc rfl

theorem Unfolds.loopless (h : g.Unfolds i e) : g.Loopless i := by
  intro d j hd e he
  obtain ⟨c, hc, -⟩ := h.descend hd
  exact hc.acyclic he

/-- **No way down from a node with a tree is longer than the number of nodes.** -/
theorem Unfolds.depth_lt {d : Nat} (h : g.Unfolds i e) (hd : g.Below i d j) : d < g.size := by
  refine h.loopless.depth_lt (fun he => ?_) hd
  obtain ⟨c, hc, -⟩ := h.descend he
  exact hc.lt_size

/-! ## The text of a node -/

theorem exprAt_succ (indent : String) (n : Nat) (h : g.Unfolds i e) :
    ∃ ids, ids.length = e.children.length ∧ (∀ p ∈ ids.zip e.children, g.Unfolds p.1 p.2) ∧
      g.children i = ids ∧
      Glsl.exprAt g indent (n + 1) i = e.assemble (ids.map (Glsl.exprAt g indent n)) := by
  cases h with
  | intro ids hk hlen hty hall =>
    refine ⟨ids, hlen, hall, by rw [Graph.children, hk, children_kind hlen], ?_⟩
    rw [Glsl.exprAt, hk]
    cases e with
    | ident | bool => rfl
    | number raw =>
      simp only [Expr.kind, Expr.assemble, Glsl.numberText, hty]
      simp
    | array elements => simp [Expr.kind, Expr.assemble, hty]
    | sequence exprs => match ids with
      | [] | [_] | _ :: _ :: _ => rfl
    | unary | update =>
      obtain ⟨a, rfl⟩ := List.length_eq_one_iff.mp hlen
      rfl
    | binary | assign | field =>
      obtain ⟨a, b, rfl⟩ := List.length_eq_two.mp hlen
      rfl
    | index object property =>
      obtain ⟨a, b, rfl⟩ := List.length_eq_two.mp hlen
      have ha : g.ty? a = none := (hall (a, object) List.mem_cons_self).untyped
      simp only [Expr.kind, Expr.assemble, List.map_cons, List.map_nil, ha]
      rfl
    | conditional =>
      obtain ⟨a, b, c, rfl⟩ := List.length_eq_three.mp hlen
      rfl
    | call =>
      cases ids with
      | nil => cases hlen
      | cons f as => rfl

theorem exprAt_of_unfolds {indent : String} {n : Nat} (h : g.Unfolds i e)
    (hn : ∀ d j, g.Below i d j → d < n) : Glsl.exprAt g indent n i = e.text := by
  induction n generalizing i e with
  | zero => exact absurd (hn 0 i .refl) (Nat.not_lt_zero 0)
  | succ n ih =>
    obtain ⟨ids, hlen, hall, hids, hstep⟩ := exprAt_succ indent n h
    rw [hstep, text_eq]
    congr 1
    refine List.ext_getElem (by simp [hlen]) fun m hm hm' => ?_
    rw [List.length_map] at hm hm'
    rw [List.getElem_map, List.getElem_map]
    have hmem : (ids[m], e.children[m]) ∈ ids.zip e.children :=
      List.mem_iff_getElem.mpr ⟨m, by simp [hm, hm'], by simp⟩
    refine ih (hall _ hmem) fun d j hd => ?_
    have hchild : ids[m] ∈ g.children i := hids ▸ List.getElem_mem hm
    exact Nat.lt_of_succ_lt_succ (hn (d + 1) j (hd.cons hchild))

/-- **The text of a node is the text of the tree below it.** -/
theorem render_of_unfolds (h : g.Unfolds i e) : g.render i = e.text := by
  refine exprAt_of_unfolds h fun d j hd => ?_
  have hlt := h.depth_lt hd
  unfold textDepth
  omega

/-! ## A node for every tree -/

theorem node_append {nodes more : Array Node} {r r' : Id} (hi : i < nodes.size) :
    (Graph.mk (nodes ++ more) r').node i = (Graph.mk nodes r).node i := by
  unfold node
  rw [Array.getD_eq_getD_getElem?, Array.getD_eq_getD_getElem?, Array.getElem?_append_left hi]

theorem Unfolds.append {nodes more : Array Node} {r r' : Id} (h : (Graph.mk nodes r).Unfolds i e) :
    (Graph.mk (nodes ++ more) r').Unfolds i e := by
  induction h with
  | @intro i e ids hk hlen hty hall ih =>
    have hnode : (Graph.mk (nodes ++ more) r').node i = (Graph.mk nodes r).node i :=
      node_append (Unfolds.intro ids hk hlen hty hall).lt_size
    refine .intro ids ?_ hlen ?_ ih
    · rw [kind, hnode]
      exact hk
    · rw [ty?, hnode]
      exact hty

theorem exists_unfolds_all {cs : List Expr}
    (h : ∀ c ∈ cs, ∀ nodes, ∃ more i, (Graph.mk (nodes ++ more) 0).Unfolds i c)
    (nodes : Array Node) : ∃ (more : Array Node) (ids : List Id), ids.length = cs.length ∧
      ∀ p ∈ ids.zip cs, (Graph.mk (nodes ++ more) 0).Unfolds p.1 p.2 := by
  induction cs generalizing nodes with
  | nil => exact ⟨#[], [], rfl, fun p hp => by cases hp⟩
  | cons c cs ih =>
    obtain ⟨more, i, hi⟩ := h c List.mem_cons_self nodes
    obtain ⟨more', ids, hlen, hall⟩ :=
      ih (fun d hd => h d (List.mem_cons_of_mem _ hd)) (nodes ++ more)
    refine ⟨more ++ more', i :: ids, by rw [List.length_cons, hlen, List.length_cons], ?_⟩
    intro p hp
    rw [← Array.append_assoc]
    rcases List.mem_cons.mp hp with rfl | hp
    · exact hi.append
    · exact hall p hp

/-- Every tree lies below some node, whatever nodes there are already. -/
theorem exists_unfolds (e : Expr) (nodes : Array Node) :
    ∃ more i, (Graph.mk (nodes ++ more) 0).Unfolds i e := by
  induction e generalizing nodes with
  | node e ih =>
    obtain ⟨more, ids, hlen, hall⟩ := exists_unfolds_all ih nodes
    let new : Node := { kind := e.kind ids }
    have hnode : (Graph.mk (nodes ++ (more ++ #[new])) 0).node (nodes ++ more).size = new := by
      rw [← Array.append_assoc]
      simp [node]
    refine ⟨more ++ #[new], (nodes ++ more).size, .intro ids ?_ hlen ?_ fun p hp => ?_⟩
    · rw [kind, hnode]
    · rw [ty?, hnode]
    · rw [← Array.append_assoc]
      exact (hall p hp).append

end Graph

end ShaderScript
