import ShaderScript.Proofs.Glsl.Expr

/-!
# Guarded expressions

An assignment, a sign and a leading increment have no parentheses of their own. What is written
right after one of them belongs to its last operand.

* `Suffix`: what is written right after an operand.
* `Expr.openRight`: whether an expression would lose a suffix to its last operand.
* `Expr.Guarded`: no root in the tree loses a part of its text to another.
* **`Expr.exists_guarded`**: every tree has the text of a guarded one.
-/

namespace ShaderScript

namespace Expr

/-! ## Characters -/

/-- The characters of the text. -/
def chars (e : Expr) : List Char := e.text.toList

theorem chars_inj {e f : Expr} : e.chars = f.chars ↔ e.text = f.text := String.toList_inj

theorem text_binary {op : BinaryOp} {l r : Expr} (h : op ≠ .rem) :
    (binary op l r).text = "(" ++ (l.text ++ (" " ++ (op.glsl ++ (" " ++ (r.text ++ ")"))))) := by
  have hop : (binary op l r).text = "(" ++ l.text ++ " " ++ op.glsl ++ " " ++ r.text ++ ")" := by
    rw [text_eq]
    cases op <;> first | rfl | exact absurd rfl h
  simpa only [String.append_assoc] using hop

theorem text_assign (op : AssignOp) (l r : Expr) :
    (assign op l r).text = l.text ++ (" " ++ (op.glsl ++ (" " ++ r.text))) := by
  rw [text_eq]
  simp only [children, assemble, List.map_cons, List.map_nil, String.append_assoc]

theorem text_conditional (t c a : Expr) :
    (conditional t c a).text =
      "(" ++ (t.text ++ (" ? " ++ (c.text ++ (" : " ++ (a.text ++ ")"))))) := by
  rw [text_eq]
  simp only [children, assemble, List.map_cons, List.map_nil, String.append_assoc]

theorem text_leading (op : UpdateOp) (a : Expr) :
    (update op true a).text = op.glsl ++ a.text := by
  rw [text_eq]
  rfl

theorem text_unary {op : UnaryOp} (h : op ≠ .plus) (a : Expr) :
    (unary op a).text = Glsl.signed op.sign a.text := by
  rw [text_eq]
  cases op <;> first | rfl | exact absurd rfl h

theorem text_sign {op : UnaryOp} {a : Expr} (h : op ≠ .plus) (ha : a.chars.head? ≠ some op.sign) :
    (unary op a).text = op.sign.toString ++ a.text := by
  rw [text_unary h, Glsl.signed, if_neg (by rwa [String.front?_eq])]

theorem text_sign_group {op : UnaryOp} {a : Expr} (h : op ≠ .plus)
    (ha : a.chars.head? = some op.sign) :
    (unary op a).text = op.sign.toString ++ ("(" ++ (a.text ++ ")")) := by
  rw [text_unary h, Glsl.signed, if_pos (by rwa [String.front?_eq])]
  simp only [String.append_assoc]

theorem text_sequence {es : List Expr} (h : es.length ≠ 1) :
    (sequence es).text = "(" ++ (Glsl.commaList (es.map text) ++ ")") := by
  rw [text_eq, ← String.append_assoc]
  match es with
  | [] | _ :: _ :: _ => rfl
  | [e] => exact absurd rfl h

/-- An assignment at the root. -/
def isAssign : Expr → Bool
  | assign .. => true
  | _ => false

/-- A suffix at the root. -/
def isSuffixed : Expr → Bool
  | call .. | field .. | index .. => true
  | update _ leading _ => !leading
  | _ => false

end Expr

/-! ## Suffixes -/

/-- What is written right after an operand. -/
inductive Suffix where
  | call (args : List Expr)
  | field (property : Expr)
  | index (property : Expr)
  | update (op : UpdateOp)

namespace Suffix

/-- An operand with a suffix. -/
def apply : Suffix → Expr → Expr
  | call args, e => .call e args
  | field property, e => .field e property
  | index property, e => .index e property
  | update op, e => .update op false e

/-- The expressions in a suffix. -/
def children : Suffix → List Expr
  | call args => args
  | field property | index property => [property]
  | update _ => []

/-- The text of a suffix. -/
def text : Suffix → String
  | call args => "(" ++ Glsl.commaList (args.map Expr.text) ++ ")"
  | field property => "." ++ property.text
  | index property => "[" ++ property.text ++ "]"
  | update op => op.glsl

/-- A suffix that ends where its text does: its property has none of its own. -/
def Fits : Suffix → Prop
  | field property => property.isAssign = false ∧ property.isSuffixed = false
  | _ => True

theorem children_apply (s : Suffix) (e : Expr) : (s.apply e).children = e :: s.children := by
  cases s <;> rfl

theorem proper_apply (s : Suffix) (e : Expr) : (s.apply e).Proper := by
  cases s <;> exact ⟨trivial, trivial⟩

theorem text_apply (s : Suffix) (e : Expr) : (s.apply e).text = e.text ++ s.text := by
  rw [Expr.text_eq, children_apply, List.map_cons]
  cases s with
  | call args => simp only [apply, children, text, Expr.assemble, String.append_assoc]
  | field p =>
    simp only [apply, children, text, Expr.assemble, List.map_cons, List.map_nil,
      String.append_assoc]
  | index p =>
    simp only [apply, children, text, Expr.assemble, List.map_cons, List.map_nil,
      Glsl.indexText, String.append_assoc]
  | update op => rfl

end Suffix

namespace Expr

/-! ## Guards -/

/-- An expression that would lose a suffix to its last operand. -/
def openRight : Expr → Bool
  | assign .. => true
  | unary op argument => decide (argument.chars.head? ≠ some op.sign)
  | update _ leading _ => leading
  | field _ property => property.openRight
  | _ => false

/-- A root that loses no part of its text to a child and no part of a child's text. -/
def Delimited : Expr → Prop
  | assign _ left _ => left.isAssign = false
  | unary op argument => argument.isAssign = true → argument.chars.head? = some op.sign
  | update _ true argument => argument.isAssign = false
  | update _ false argument => argument.openRight = false
  | call callee _ => callee.openRight = false
  | field object property =>
    object.openRight = false ∧ property.isAssign = false ∧ property.isSuffixed = false
  | index object _ => object.openRight = false
  | _ => True

/-- A tree that can be read back from its text. -/
def Guarded (e : Expr) : Prop := e.Every Delimited

/-- A root that is plain, legible and delimited. -/
def Settled (e : Expr) : Prop := e.Proper ∧ e.Delimited

theorem every_settled_iff {e : Expr} : e.Every Settled ↔ e.Every Proper ∧ e.Guarded := by
  constructor
  · intro h
    induction h with
    | intro h _ ih => exact ⟨.intro h.1 fun c hc => (ih c hc).1, .intro h.2 fun c hc => (ih c hc).2⟩
  · rintro ⟨hp, hg⟩
    induction hp with
    | intro h _ ih => exact .intro ⟨h, hg.root⟩ fun c hc => ih c hc (hg.child hc)

theorem exists_assign_of_isAssign {e : Expr} (h : e.isAssign = true) :
    ∃ op l r, e = assign op l r := by
  cases e with
  | assign op l r => exact ⟨op, l, r, rfl⟩
  | _ => cases h

theorem exists_apply_of_isSuffixed {e : Expr} (h : e.isSuffixed = true) :
    ∃ (s : Suffix) (a : Expr), e = s.apply a := by
  cases e with
  | call f args => exact ⟨.call args, f, rfl⟩
  | field o p => exact ⟨.field p, o, rfl⟩
  | index o p => exact ⟨.index p, o, rfl⟩
  | update op leading a =>
    cases leading with
    | false => exact ⟨.update op, a, rfl⟩
    | true => cases h
  | _ => cases h

/-! ## First characters -/

/-- A character that an expression can start with. -/
def startChar (c : Char) : Bool := wordChar c || c == '(' || c == '-' || c == '+' || c == '!'

theorem head?_append {s t : String} {c : Char} (h : s.toList.head? = some c) :
    (s ++ t).toList.head? = some c := by
  rw [String.toList_append, List.head?_append, h]
  rfl

theorem startChar_of_wordChar {c : Char} (h : wordChar c = true) : startChar c = true := by
  simp [startChar, h]

theorem wordChar_of_isDigit {c : Char} (h : c.isDigit = true) : wordChar c = true := by
  simp [wordChar, Char.isAlphanum, h]

theorem head?_chars {e : Expr} (h : e.Every Proper) :
    ∃ c, e.chars.head? = some c ∧ startChar c = true := by
  induction e with
  | node e ih =>
    -- a text that starts with the text of a child
    have hchild : ∀ {a t}, a ∈ e.children → e.text = a.text ++ t →
        ∃ c, e.chars.head? = some c ∧ startChar c = true := by
      intro a t ha ht
      obtain ⟨c, hc, hstart⟩ := ih a ha (h.child ha)
      refine ⟨c, ?_, hstart⟩
      rw [chars, ht]
      exact head?_append hc
    obtain ⟨hplain, hlegible⟩ := h.root
    cases e with
    | ident name =>
      obtain ⟨c, hc, -⟩ := hlegible.start
      refine ⟨c, by rwa [chars, text_eq], startChar_of_wordChar (hlegible.word c ?_)⟩
      exact List.mem_of_head? hc
    | number raw =>
      cases hraw : raw.toList with
      | nil => exact absurd (String.toList_eq_nil_iff.mp hraw) hlegible.1
      | cons c cs =>
        refine ⟨c, by rw [chars, text_eq]; exact congrArg List.head? hraw, ?_⟩
        exact startChar_of_wordChar (wordChar_of_isDigit (hlegible.2 c (by simp [hraw])))
    | bool value =>
      rw [chars, text_eq]
      cases value with
      | true => exact ⟨'t', rfl, rfl⟩
      | false => exact ⟨'f', rfl, rfl⟩
    | binary op l r =>
      rw [chars, text_binary hplain.1]
      exact ⟨'(', head?_append rfl, rfl⟩
    | conditional t c a =>
      rw [chars, text_conditional]
      exact ⟨'(', head?_append rfl, rfl⟩
    | sequence es =>
      rw [chars, text_sequence hplain]
      exact ⟨'(', head?_append rfl, rfl⟩
    | array es => exact hplain.elim
    | unary op a =>
      refine ⟨op.sign, ?_, by cases op <;> rfl⟩
      rw [chars, text_unary hplain, Glsl.signed]
      split_ifs
      · simp
      · simp
    | assign op l r =>
      exact hchild List.mem_cons_self (text_assign op l r)
    | update op leading a =>
      cases leading with
      | false => exact hchild List.mem_cons_self (Suffix.text_apply (.update op) a)
      | true =>
        rw [chars, text_leading]
        cases op with
        | increment => exact ⟨'+', head?_append rfl, rfl⟩
        | decrement => exact ⟨'-', head?_append rfl, rfl⟩
    | call f args => exact hchild List.mem_cons_self (Suffix.text_apply (.call args) f)
    | field o p => exact hchild List.mem_cons_self (Suffix.text_apply (.field p) o)
    | index o p => exact hchild List.mem_cons_self (Suffix.text_apply (.index p) o)

/-- What is added to a text does not change how it starts. -/
theorem head?_chars_of_text {e f : Expr} {t : String} (h : e.Every Proper)
    (hf : f.text = e.text ++ t) : f.chars.head? = e.chars.head? := by
  obtain ⟨c, hc, -⟩ := head?_chars h
  rw [hc, chars, hf]
  exact head?_append hc

/-! ## A guarded tree for every text -/

theorem text_field (o p : Expr) : (field o p).text = o.text ++ ("." ++ p.text) :=
  Suffix.text_apply (.field p) o

theorem delimited_apply {s : Suffix} {e : Expr} :
    (s.apply e).Delimited ↔ e.openRight = false ∧ s.Fits := by
  cases s with
  | field p => exact .rfl
  | call | index | update => exact ⟨fun h => ⟨h, trivial⟩, fun h => h.1⟩

/-- A suffix moves past everything that would lose it. -/
theorem exists_guarded_apply {s : Suffix} {e : Expr} (he : e.Every Settled) (hs : s.Fits)
    (hc : ∀ c ∈ s.children, c.Every Settled) :
    ∃ u : Expr, u.Every Settled ∧ u.text = e.text ++ s.text ∧
      (e.isAssign = false → u.isAssign = false) ∧
      (e.openRight = true → e.isSuffixed = false → u.isSuffixed = false) := by
  induction e with
  | node e ih =>
    obtain ⟨⟨hplain, -⟩, hdel⟩ := he.root
    by_cases ho : e.openRight = true
    · -- the last operand takes the suffix
      cases e with
      | assign op l r =>
        obtain ⟨u, hu, htext, -⟩ := ih r (by simp [children]) (he.child (by simp [children]))
        refine ⟨assign op l u, every_of_two ⟨⟨trivial, trivial⟩, hdel⟩ rfl
          (he.child List.mem_cons_self) hu, ?_, Bool.noConfusion, fun _ _ => rfl⟩
        rw [text_assign, text_assign, htext]
        simp only [String.append_assoc]
      | unary op a =>
        have ha : a.Every Settled := he.child List.mem_cons_self
        have hhead : a.chars.head? ≠ some op.sign := of_decide_eq_true ho
        have hassign : a.isAssign = false := by
          by_contra hc
          exact hhead (hdel (Bool.eq_true_of_not_eq_false hc))
        obtain ⟨u, hu, htext, hassign', -⟩ := ih a List.mem_cons_self ha
        have hhead' : u.chars.head? ≠ some op.sign := by
          rwa [head?_chars_of_text (every_settled_iff.mp ha).1 htext]
        refine ⟨unary op u, every_of_one ⟨⟨hplain, trivial⟩, ?_⟩ rfl hu, ?_, fun _ => rfl,
          fun _ _ => rfl⟩
        · intro hc
          rw [hassign' hassign] at hc
          cases hc
        · rw [text_sign hplain hhead', text_sign hplain hhead, htext, String.append_assoc]
      | update op leading a =>
        obtain rfl : leading = true := ho
        obtain ⟨u, hu, htext, hassign, -⟩ := ih a List.mem_cons_self (he.child List.mem_cons_self)
        refine ⟨update op true u, every_of_one ⟨⟨trivial, trivial⟩, hassign hdel⟩ rfl hu, ?_,
          fun _ => rfl, fun _ _ => rfl⟩
        rw [text_leading, text_leading, htext, String.append_assoc]
      | field o p =>
        obtain ⟨hobj, hassign, hsuffixed⟩ := hdel
        obtain ⟨u, hu, htext, hassign', hsuffixed'⟩ :=
          ih p (by simp [children]) (he.child (by simp [children]))
        refine ⟨field o u, every_of_two ⟨⟨trivial, trivial⟩, hobj, hassign' hassign,
          hsuffixed' ho hsuffixed⟩ rfl (he.child List.mem_cons_self) hu, ?_, fun _ => rfl,
          fun _ => Bool.noConfusion⟩
        rw [text_field, text_field, htext]
        simp only [String.append_assoc]
      | _ => cases ho
    · have hclosed : e.openRight = false := Bool.eq_false_of_not_eq_true ho
      refine ⟨s.apply e, .intro ⟨s.proper_apply e, delimited_apply.mpr ⟨hclosed, hs⟩⟩ ?_,
        s.text_apply e, fun _ => by cases s <;> rfl, fun h => absurd h ho⟩
      intro c hm
      rw [s.children_apply] at hm
      rcases List.mem_cons.mp hm with rfl | hm
      · exact he
      · exact hc c hm

/-- An assignment moves to the right of those on its left. -/
theorem exists_guarded_assign (op : AssignOp) {l r : Expr} (hl : l.Every Settled)
    (hr : r.Every Settled) : ∃ u : Expr, u.Every Settled ∧ u.text = (assign op l r).text := by
  induction l with
  | node l ih =>
    by_cases ha : l.isAssign = true
    · obtain ⟨op', a, b, rfl⟩ := exists_assign_of_isAssign ha
      obtain ⟨u, hu, htext⟩ := ih b (by simp [children]) (hl.child (by simp [children]))
      refine ⟨assign op' a u, every_of_two ⟨⟨trivial, trivial⟩, hl.root.2⟩ rfl
        (hl.child List.mem_cons_self) hu, ?_⟩
      simp only [text_assign, htext, String.append_assoc]
    · exact ⟨assign op l r, every_of_two ⟨⟨trivial, trivial⟩, Bool.eq_false_of_not_eq_true ha⟩ rfl
        hl hr, rfl⟩

/-- A property gives up its assignments and its suffixes. -/
theorem exists_guarded_field {o p : Expr} (ho : o.Every Settled) (hp : p.Every Settled) :
    ∃ u : Expr, u.Every Settled ∧ u.text = (field o p).text := by
  induction p with
  | node p ih =>
    by_cases ha : p.isAssign = true
    · obtain ⟨op, q, b, rfl⟩ := exists_assign_of_isAssign ha
      obtain ⟨u, hu, htext⟩ := ih q List.mem_cons_self (hp.child List.mem_cons_self)
      obtain ⟨v, hv, htext'⟩ :=
        exists_guarded_assign op hu (hp.child (c := b) (by simp [children]))
      refine ⟨v, hv, ?_⟩
      simp only [htext', text_assign, text_field, htext, String.append_assoc]
    · by_cases hs : p.isSuffixed = true
      · obtain ⟨s, q, rfl⟩ := exists_apply_of_isSuffixed hs
        have hmem : q ∈ (s.apply q).children := by
          rw [s.children_apply]
          exact List.mem_cons_self
        have hrest : ∀ c ∈ s.children, c.Every Settled := fun c hc => by
          refine hp.child ?_
          rw [s.children_apply]
          exact List.mem_cons_of_mem _ hc
        obtain ⟨u, hu, htext⟩ := ih q hmem (hp.child hmem)
        obtain ⟨v, hv, htext', -⟩ := exists_guarded_apply hu (delimited_apply.mp hp.root.2).2 hrest
        refine ⟨v, hv, ?_⟩
        simp only [htext', text_field, Suffix.text_apply, htext, String.append_assoc]
      · have hfits : (Suffix.field p).Fits :=
          ⟨Bool.eq_false_of_not_eq_true ha, Bool.eq_false_of_not_eq_true hs⟩
        obtain ⟨u, hu, htext, -⟩ := exists_guarded_apply ho hfits fun c hc => by
          rwa [List.mem_singleton.mp hc]
        exact ⟨u, hu, htext.trans (text_field o p).symm⟩

theorem exists_guarded_root {e : Expr} (h : e.Proper) (hc : ∀ c ∈ e.children, c.Every Settled) :
    ∃ u : Expr, u.Every Settled ∧ u.text = e.text := by
  -- a suffix at the root
  have hsuffix : ∀ (s : Suffix) (a : Expr), e = s.apply a → s.Fits →
      ∃ u : Expr, u.Every Settled ∧ u.text = e.text := by
    rintro s a rfl hs
    rw [s.children_apply] at hc
    obtain ⟨u, hu, htext, -⟩ := exists_guarded_apply (hc a List.mem_cons_self) hs
      fun c hm => hc c (List.mem_cons_of_mem _ hm)
    exact ⟨u, hu, htext.trans (s.text_apply a).symm⟩
  cases e with
  | assign op l r =>
    exact exists_guarded_assign op (hc l List.mem_cons_self) (hc r (by simp [children]))
  | field o p => exact exists_guarded_field (hc o List.mem_cons_self) (hc p (by simp [children]))
  | call f args => exact hsuffix (.call args) f rfl trivial
  | index o p => exact hsuffix (.index p) o rfl trivial
  | unary op a =>
    have ha := hc a List.mem_cons_self
    by_cases hdel : (unary op a).Delimited
    · exact ⟨_, every_of_one ⟨h, hdel⟩ rfl ha, rfl⟩
    · obtain ⟨hassign, hhead⟩ := Classical.not_imp.mp hdel
      obtain ⟨op', l, r, rfl⟩ := exists_assign_of_isAssign hassign
      have hl := ha.child (c := l) List.mem_cons_self
      have hhead' : l.chars.head? ≠ some op.sign := by
        rwa [← head?_chars_of_text (every_settled_iff.mp hl).1 (text_assign op' l r)]
      have hsign : (unary op l).Every Settled := by
        refine every_of_one ⟨h, fun hl' => ?_⟩ rfl hl
        rw [ha.root.2] at hl'
        cases hl'
      refine ⟨assign op' (unary op l) r, every_of_two ⟨⟨trivial, trivial⟩, rfl⟩ rfl hsign
        (ha.child (by simp [children])), ?_⟩
      rw [text_assign, text_sign h.1 hhead', text_sign h.1 hhead, text_assign, String.append_assoc]
  | update op leading a =>
    have ha := hc a List.mem_cons_self
    cases leading with
    | false => exact hsuffix (.update op) a rfl trivial
    | true =>
      by_cases hassign : a.isAssign = true
      · obtain ⟨op', l, r, rfl⟩ := exists_assign_of_isAssign hassign
        have hlead : (update op true l).Every Settled :=
          every_of_one ⟨h, ha.root.2⟩ rfl (ha.child List.mem_cons_self)
        refine ⟨assign op' (update op true l) r, every_of_two ⟨⟨trivial, trivial⟩, rfl⟩ rfl hlead
          (ha.child (by simp [children])), ?_⟩
        rw [text_assign, text_leading, text_leading, text_assign, String.append_assoc]
      · exact ⟨_, every_of_one ⟨h, Bool.eq_false_of_not_eq_true hassign⟩ rfl ha, rfl⟩
  | _ => exact ⟨_, .intro ⟨h, trivial⟩ hc, rfl⟩

/-- **Every tree has the text of a guarded one.** -/
theorem exists_guarded {e : Expr} (h : e.Every Proper) :
    ∃ u : Expr, u.Every Settled ∧ u.text = e.text := by
  induction e with
  | node e ih =>
    choose! f hf using fun c hc => ih c hc (h.child hc)
    have hlen : (e.children.map f).length = e.children.length := List.length_map _
    have htext : (e.rebuild (e.children.map f)).text = e.text := by
      refine text_rebuild ?_
      rw [List.map_map]
      exact List.map_congr_left fun c hc => (hf c hc).2
    obtain ⟨hlegible, hplain⟩ := root_rebuild hlen
    rw [← htext]
    refine exists_guarded_root ⟨hplain.mpr h.root.1, hlegible.mpr h.root.2⟩ fun c hc => ?_
    rw [children_rebuild hlen] at hc
    obtain ⟨d, hd, rfl⟩ := List.mem_map.mp hc
    exact (hf d hd).1

end Expr

end ShaderScript
