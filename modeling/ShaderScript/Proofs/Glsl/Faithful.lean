import ShaderScript.Proofs.Glsl.Guarded
import ShaderScript.Proofs.Glsl.Reader

/-!
# Faithful text

A guarded tree is read back from its text. Hence its text determines it among the guarded trees,
and these are all that can be had: a tree without guards has the text of another one.

* `Readable`: what the reader finds at the text of a tree, by what may follow it.
* `readable_of_settled`: every guarded tree is readable.
* `Glsl.eq_of_text_eq`: the text of a guarded tree determines it.
* **`guarded_iff_render_faithful`**: which trees keep their structure.
-/

namespace ShaderScript

namespace Glsl

open Expr

variable {cs rest : List Char} {e f g : Expr} {tail : Bool} {r : Expr × List Char}

/-! ## What may follow -/

/-- No word goes on here. -/
def Stops (rest : List Char) : Prop := ∀ c ∈ rest.head?, wordChar c = false

/-- An expression ends here. -/
def Ends (rest : List Char) : Prop := Halts rest ∧ assignAhead? rest = none

theorem Halts.stops (h : Halts rest) : Stops rest := by
  intro c hc
  have hmem := h c hc
  simp only [List.mem_cons, List.not_mem_nil, or_false] at hmem
  rcases hmem with rfl | rfl | rfl | rfl <;> rfl

theorem stops_cons {c : Char} (h : wordChar c = false) : Stops (c :: rest) := by
  rintro d ⟨⟩
  exact h

theorem halts_space : Halts (' ' :: rest) := by
  rintro c ⟨⟩
  decide

theorem ends_nil : Ends [] := ⟨nofun, rfl⟩

theorem ends_cons {c : Char} (h : c ∈ [')', ']', ',']) : Ends (c :: rest) := by
  simp only [List.mem_cons, List.not_mem_nil, or_false] at h
  refine ⟨?_, ?_⟩
  · rintro d ⟨⟩
    simp only [List.mem_cons, List.not_mem_nil, or_false]
    exact .inr h
  · rcases h with rfl | rfl | rfl <;> rfl

theorem opAhead?_word {w : String} (h : ' ' ∉ w.toList) :
    opAhead? (' ' :: (w.toList ++ ' ' :: rest)) = some (w, rest) := by
  have hw : ∀ c ∈ w.toList, (c != ' ') = true := fun c hc =>
    bne_iff_ne.mpr fun he => h (he ▸ hc)
  rw [opAhead?, List.dropWhile_append_of_pos hw, List.takeWhile_append_of_pos hw]
  simp

theorem assignAhead?_glsl (op : AssignOp) :
    assignAhead? (' ' :: (op.glsl.toList ++ ' ' :: rest)) = some (op, rest) := by
  rw [assignAhead?, opAhead?_word (by cases op <;> decide)]
  simp only [AssignOp.ofSource?_glsl, Option.map_some]

theorem ends_word {w : String} (h : ' ' ∉ w.toList) (hw : AssignOp.ofSource? w = none) :
    Ends (' ' :: (w.toList ++ ' ' :: rest)) := by
  refine ⟨halts_space, ?_⟩
  rw [assignAhead?, opAhead?_word h]
  simp only [hw, Option.map_none]

theorem ends_binary (op : BinaryOp) : Ends (' ' :: (op.glsl.toList ++ ' ' :: rest)) :=
  ends_word (by cases op <;> decide) (by cases op <;> rfl)

/-! ## Words -/

theorem readWord_append {w : String} (hw : ∀ c ∈ w.toList, wordChar c = true) (h : Stops rest) :
    readWord (w.toList ++ rest) = (wordExpr w.toList, rest) := by
  have htake : rest.takeWhile wordChar = [] := by
    cases rest with
    | nil => rfl
    | cons c cs => exact List.takeWhile_cons_of_neg (by rw [h c rfl]; decide)
  have hdrop : rest.dropWhile wordChar = rest := by
    cases rest with
    | nil => rfl
    | cons c cs => exact List.dropWhile_cons_of_neg (by rw [h c rfl]; decide)
  rw [readWord, List.takeWhile_append_of_pos hw, List.dropWhile_append_of_pos hw, htake, hdrop,
    List.append_nil]

theorem wordExpr_name {w : String} (h : IsName w) : wordExpr w.toList = .ident w := by
  have hdigit : ¬ w.toList.all Char.isDigit = true := by
    obtain ⟨c, hc, hd⟩ := h.start
    intro hall
    have := List.all_eq_true.mp hall c (List.mem_of_head? hc)
    rw [hd] at this
    cases this
  rw [wordExpr, if_neg hdigit, if_neg fun he => h.ne_true (String.toList_inj.mp he),
    if_neg fun he => h.ne_false (String.toList_inj.mp he), String.ofList_toList]

theorem wordExpr_number {w : String} (h : ∀ c ∈ w.toList, c.isDigit = true) :
    wordExpr w.toList = .number w := by
  rw [wordExpr, if_pos (List.all_eq_true.mpr h), String.ofList_toList]

theorem reads_word_text {w : String} (hne : w ≠ "") (hw : ∀ c ∈ w.toList, wordChar c = true)
    (h : Stops rest) (hr : Continues tail (wordExpr w.toList) rest r) :
    Reads (readUnary tail (w.toList ++ rest)) r := by
  have hread := readWord_append hw h
  cases hchars : w.toList with
  | nil => exact absurd (String.toList_eq_nil_iff.mp hchars) hne
  | cons c cs =>
    rw [hchars] at hread hr
    exact reads_word (hw c (by simp [hchars])) hread hr

/-! ## Readable trees -/

/-- What the reader finds at the text of a tree. A closed tree stands before any suffix, an
operand where no suffix follows, and any tree at all where an expression ends. -/
structure Readable (e : Expr) : Prop where
  proper : e.Every Proper
  closed : e.openRight = false → ∀ {tail rest r}, (e.isSuffixed = true → tail = true) →
    Stops rest → Continues tail e rest r → Reads (readUnary tail (e.chars ++ rest)) r
  operand : e.isAssign = false → ∀ {tail rest}, (e.isSuffixed = true → tail = true) →
    Halts rest → Reads (readUnary tail (e.chars ++ rest)) (e, rest)
  whole : ∀ {rest}, Ends rest → Reads (readExpr (e.chars ++ rest)) (e, rest)

theorem continues_halt (h : Halts rest) : Continues tail e rest (e, rest) := by
  cases tail with
  | false => exact continues_false
  | true => exact continues_true.mpr (reads_halt h)

theorem Readable.of_closed (hp : e.Every Proper)
    (h : ∀ {tail rest r}, (e.isSuffixed = true → tail = true) → Stops rest →
      Continues tail e rest r → Reads (readUnary tail (e.chars ++ rest)) r) : Readable e where
  proper := hp
  closed _ := h
  operand _ _ _ ht hr := h ht hr.stops (continues_halt hr)
  whole hr := reads_expr (h (fun _ => rfl) hr.1.stops (continues_halt hr.1)) hr.2

theorem Readable.of_operand (hp : e.Every Proper) (ho : e.openRight = true)
    (h : ∀ {tail rest}, (e.isSuffixed = true → tail = true) → Halts rest →
      Reads (readUnary tail (e.chars ++ rest)) (e, rest)) : Readable e where
  proper := hp
  closed hc := by rw [ho] at hc; cases hc
  operand _ := h
  whole hr := reads_expr (h (fun _ => rfl) hr.1) hr.2

theorem Readable.head?_ne (h : Readable e) {c : Char} (hc : startChar c = false) :
    (e.chars ++ rest).head? ≠ some c := by
  obtain ⟨d, hd, hstart⟩ := head?_chars h.proper
  rw [List.head?_append, hd]
  rintro ⟨⟩
  rw [hc] at hstart
  cases hstart

theorem Readable.item (h : Readable e) (hr : Ends rest) (hc : rest.head? ≠ some ',') :
    Reads (readItems (e.chars ++ rest)) ([e], rest) :=
  reads_item (h.whole hr) hc

/-! ## Lists -/

/-- The characters of a list with commas. -/
def items (es : List Expr) : List Char := (commaList (es.map text)).toList

theorem items_cons (e f : Expr) (es : List Expr) :
    items (e :: f :: es) = e.chars ++ ',' :: ' ' :: items (f :: es) := by
  simp [items, commaList, chars]

theorem items_one (e : Expr) : items [e] = e.chars := by
  simp [items, commaList, chars]

theorem head?_items_ne {es : List Expr} (hne : es ≠ []) (h : ∀ e ∈ es, Readable e) :
    (items es ++ rest).head? ≠ some ')' := by
  match es with
  | [] => exact absurd rfl hne
  | [e] =>
    rw [items_one]
    exact (h e List.mem_cons_self).head?_ne rfl
  | e :: f :: es =>
    rw [items_cons, List.append_assoc]
    exact (h e List.mem_cons_self).head?_ne rfl

theorem reads_list {es : List Expr} (hne : es ≠ []) (h : ∀ e ∈ es, Readable e) :
    Reads (readItems (items es ++ ')' :: rest)) (es, ')' :: rest) := by
  induction es with
  | nil => exact absurd rfl hne
  | cons e es ih =>
    have he := h e List.mem_cons_self
    cases es with
    | nil =>
      rw [items_one]
      exact he.item (ends_cons (by decide)) (by simp)
    | cons f es =>
      rw [items_cons, List.append_assoc]
      refine reads_items (he.whole (ends_cons (by decide))) ?_
      exact ih (List.cons_ne_nil f es) fun c hc => h c (List.mem_cons_of_mem _ hc)

/-! ## Suffixes -/

theorem stops_suffix (s : Suffix) : Stops (s.text.toList ++ rest) := by
  cases s with
  | call args => simpa [Suffix.text] using stops_cons rfl
  | field p => simpa [Suffix.text] using stops_cons rfl
  | index p => simpa [Suffix.text] using stops_cons rfl
  | update op => cases op <;> exact stops_cons rfl

theorem reads_suffix {s : Suffix} (hs : s.Fits) (ho : (s.apply e).openRight = false)
    (hc : ∀ c ∈ s.children, Readable c) (hstop : Stops rest)
    (h : Reads (readSuffixes (s.apply e) rest) r) :
    Reads (readSuffixes e (s.text.toList ++ rest)) r := by
  cases s with
  | call args =>
    have htext : (Suffix.call args).text.toList ++ rest = '(' :: (items args ++ ')' :: rest) := by
      simp [Suffix.text, items]
    rw [htext]
    by_cases hargs : args = []
    · subst hargs
      exact reads_call_nil h
    · exact reads_call (head?_items_ne hargs hc) (reads_list hargs hc) h
  | field p =>
    have hp := hc p List.mem_cons_self
    have htext : (Suffix.field p).text.toList ++ rest = '.' :: (p.chars ++ rest) := by
      simp [Suffix.text, chars]
    rw [htext]
    exact reads_field (hp.closed ho hs.2.symm.trans hstop continues_false) h
  | index p =>
    have hp := hc p List.mem_cons_self
    have htext : (Suffix.index p).text.toList ++ rest = '[' :: (p.chars ++ ']' :: rest) := by
      simp [Suffix.text, chars]
    rw [htext]
    exact reads_index (hp.whole (ends_cons (by decide))) h
  | update op => exact reads_update_after h

theorem isSuffixed_apply (s : Suffix) (e : Expr) : (s.apply e).isSuffixed = true := by
  cases s <;> rfl

theorem chars_apply (s : Suffix) (e : Expr) :
    (s.apply e).chars ++ rest = e.chars ++ (s.text.toList ++ rest) := by
  rw [chars, s.text_apply, String.toList_append, List.append_assoc]
  rfl

/-! ## Every guarded tree is readable -/

theorem readable_word {w : String} (hp : e.Every Proper) (htext : e.text = w) (hne : w ≠ "")
    (hw : ∀ c ∈ w.toList, wordChar c = true) (he : wordExpr w.toList = e) : Readable e := by
  refine .of_closed hp fun _ hstop hr => ?_
  rw [chars, htext]
  exact reads_word_text hne hw hstop (by rwa [he])

theorem readable_binary {op : BinaryOp} (hp : (binary op e f).Every Proper) (he : Readable e)
    (hf : Readable f) : Readable (binary op e f) := by
  obtain ⟨hrem, heq, hne⟩ := hp.root.1
  have hop : BinaryOp.ofSource? op.glsl = some op := by
    cases op <;> first | rfl | contradiction
  refine .of_closed hp fun {_ rest _} _ _ hr => ?_
  have htext : (binary op e f).chars ++ rest =
      '(' :: (e.chars ++ ' ' :: (op.glsl.toList ++ ' ' :: (f.chars ++ ')' :: rest))) := by
    simp [chars, text_binary hrem]
  rw [htext]
  refine reads_paren (reads_binary (he.head?_ne rfl) (he.item (ends_binary op) (by simp))
    (opAhead?_word (by cases op <;> decide)) hop (hf.whole (ends_cons (by decide)))) hr

theorem readable_conditional (hp : (conditional e f g).Every Proper) (he : Readable e)
    (hf : Readable f) (hg : Readable g) : Readable (conditional e f g) := by
  refine .of_closed hp fun {_ rest _} _ _ hr => ?_
  have htext : (conditional e f g).chars ++ rest = '(' :: (e.chars ++ ' ' :: ("?".toList ++ ' ' ::
      (f.chars ++ ' ' :: (":".toList ++ ' ' :: (g.chars ++ ')' :: rest))))) := by
    simp [chars, text_conditional]
  rw [htext]
  exact reads_paren (reads_conditional (he.head?_ne rfl)
    (he.item (ends_word (by decide) rfl) (by simp)) (opAhead?_word (by decide))
    (hf.whole (ends_word (by decide) rfl)) (opAhead?_word (by decide))
    (hg.whole (ends_cons (by decide)))) hr

theorem readable_sequence {es : List Expr} (hp : (sequence es).Every Proper)
    (h : ∀ e ∈ es, Readable e) : Readable (sequence es) := by
  refine .of_closed hp fun {_ rest _} _ _ hr => ?_
  have htext : (sequence es).chars ++ rest = '(' :: (items es ++ ')' :: rest) := by
    simp [chars, text_sequence hp.root.1, items]
  rw [htext]
  rcases es with _ | ⟨a, _ | ⟨b, es⟩⟩
  · exact reads_paren reads_unit hr
  · exact absurd rfl hp.root.1
  · exact reads_paren (reads_tuple (head?_items_ne (by simp) h) (reads_list (by simp) h)) hr

theorem readable_assign {op : AssignOp} (hp : (assign op e f).Every Proper) (he : Readable e)
    (ha : e.isAssign = false) (hf : Readable f) : Readable (assign op e f) where
  proper := hp
  closed hc := by cases hc
  operand hc := by cases hc
  whole {rest} hr := by
    have htext : (assign op e f).chars ++ rest =
        e.chars ++ ' ' :: (op.glsl.toList ++ ' ' :: (f.chars ++ rest)) := by
      simp [chars, text_assign]
    rw [htext]
    exact reads_assign (he.operand ha (fun _ => rfl) halts_space) (assignAhead?_glsl op)
      (hf.whole hr)

theorem readable_leading {op : UpdateOp} (hp : (update op true e).Every Proper) (he : Readable e)
    (ha : e.isAssign = false) : Readable (update op true e) := by
  refine .of_operand hp rfl fun {_ rest} _ hr => ?_
  have htext : (update op true e).chars ++ rest = op.glsl.toList ++ (e.chars ++ rest) := by
    simp [chars, text_leading]
  rw [htext]
  exact reads_update (he.operand ha (fun _ => rfl) hr)

theorem readable_unary {op : UnaryOp} (hp : (unary op e).Every Proper) (he : Readable e)
    (hdel : (unary op e).Delimited) : Readable (unary op e) := by
  have hop : op ≠ .plus := hp.root.1
  by_cases hhead : e.chars.head? = some op.sign
  · refine .of_closed hp fun {_ rest _} _ _ hr => ?_
    have htext : (unary op e).chars ++ rest = op.sign :: '(' :: (e.chars ++ ')' :: rest) := by
      simp [chars, text_sign_group hop hhead]
    rw [htext]
    exact reads_sign_group hop (reads_group (he.head?_ne rfl)
      (he.item (ends_cons (by decide)) (by simp))) hr
  · refine .of_operand hp (decide_eq_true hhead) fun {_ rest} _ hr => ?_
    have ha : e.isAssign = false := Bool.eq_false_of_not_eq_true fun h => hhead (hdel h)
    have htext : (unary op e).chars ++ rest = op.sign :: (e.chars ++ rest) := by
      simp [chars, text_sign hop hhead]
    have hhead' : (e.chars ++ rest).head? ≠ some op.sign := by
      obtain ⟨c, hc, -⟩ := head?_chars he.proper
      rwa [List.head?_append, hc, Option.some_or, ← hc]
    rw [htext]
    exact reads_sign hop hhead' (he.operand ha (fun _ => rfl) hr)

theorem readable_apply {s : Suffix} (hp : (s.apply e).Every Proper) (he : Readable e)
    (hdel : (s.apply e).Delimited) (hc : ∀ c ∈ s.children, Readable c) : Readable (s.apply e) := by
  obtain ⟨hclosed, hfits⟩ := delimited_apply.mp hdel
  cases ho : (s.apply e).openRight with
  | false =>
    refine .of_closed hp fun {tail rest r} ht hstop hr => ?_
    obtain rfl := ht (isSuffixed_apply s e)
    rw [chars_apply]
    exact he.closed hclosed (fun _ => rfl) (stops_suffix s)
      (continues_true.mpr (reads_suffix hfits ho hc hstop (continues_true.mp hr)))
  | true =>
    -- only a property can leave it open
    refine .of_operand hp ho fun {tail rest} ht hr => ?_
    obtain rfl := ht (isSuffixed_apply s e)
    cases s with
    | field p =>
      have hp' := hc p List.mem_cons_self
      have htext : ((Suffix.field p).apply e).chars ++ rest =
          e.chars ++ '.' :: (p.chars ++ rest) := by
        rw [chars_apply]
        simp [Suffix.text, chars]
      rw [htext]
      refine he.closed hclosed (fun _ => rfl) (stops_cons rfl) (continues_true.mpr ?_)
      exact reads_field (hp'.operand hfits.1 hfits.2.symm.trans hr) (reads_halt hr)
    | call | index | update => cases ho

/-- **Every guarded tree is read back from its text.** -/
theorem readable_of_settled (h : e.Every Settled) : Readable e := by
  have hp := (every_settled_iff.mp h).1
  induction e with
  | node e ih =>
    have hdel := h.root.2
    have hchild : ∀ c ∈ e.children, Readable c := fun c hc =>
      ih c hc (h.child hc) (hp.child hc)
    -- a suffix at the root
    have hsuffix : ∀ (s : Suffix) (a : Expr), e = s.apply a → Readable e := by
      rintro s a rfl
      rw [s.children_apply] at hchild
      exact readable_apply hp (hchild a List.mem_cons_self) hdel
        fun c hc => hchild c (List.mem_cons_of_mem _ hc)
    obtain ⟨hplain, hlegible⟩ := h.root.1
    cases e with
    | ident name =>
      have hne : name ≠ "" := by
        rintro rfl
        obtain ⟨c, hc, -⟩ := hlegible.start
        cases hc
      exact readable_word hp (text_eq _) hne hlegible.word (wordExpr_name hlegible)
    | number raw =>
      exact readable_word hp (text_eq _) hlegible.1
        (fun c hc => wordChar_of_isDigit (hlegible.2 c hc)) (wordExpr_number hlegible.2)
    | bool value =>
      cases value with
      | true => exact readable_word hp (text_eq _) (by decide) (List.all_eq_true.mp rfl) rfl
      | false => exact readable_word hp (text_eq _) (by decide) (List.all_eq_true.mp rfl) rfl
    | binary op l r =>
      exact readable_binary hp (hchild l (by simp [children])) (hchild r (by simp [children]))
    | conditional t c a =>
      exact readable_conditional hp (hchild t (by simp [children])) (hchild c (by simp [children]))
        (hchild a (by simp [children]))
    | sequence es => exact readable_sequence hp hchild
    | array es => exact hplain.elim
    | assign op l r =>
      exact readable_assign hp (hchild l (by simp [children])) hdel (hchild r (by simp [children]))
    | unary op a => exact readable_unary hp (hchild a List.mem_cons_self) hdel
    | update op leading a =>
      cases leading with
      | true => exact readable_leading hp (hchild a List.mem_cons_self) hdel
      | false => exact hsuffix (.update op) a rfl
    | call f args => exact hsuffix (.call args) f rfl
    | field o p => exact hsuffix (.field p) o rfl
    | index o p => exact hsuffix (.index p) o rfl

/-- **The text of a guarded tree determines it.** -/
theorem eq_of_text_eq (he : e.Every Settled) (hf : f.Every Settled) (h : e.text = f.text) :
    e = f := by
  have hread := (readable_of_settled he).whole ends_nil
  rw [chars_inj.mpr h] at hread
  exact congrArg Prod.fst (hread.unique ((readable_of_settled hf).whole ends_nil))

end Glsl

/-! ## The text of a node -/

open Expr

/-- **Which trees keep their structure.** A tree has a guard at every bare part exactly when its
text, among the texts of all guarded trees, is that of the trees with its normal form only. -/
theorem guarded_iff_render_faithful {g : Graph} {i : Id} {t : Expr} (h : g.Unfolds i t)
    (hl : t.Every Legible) :
    t.norm.Guarded ↔ ∀ (g' : Graph) (i' : Id) (t' : Expr), g'.Unfolds i' t' → t'.Every Legible →
      t'.norm.Guarded → (g'.render i' = g.render i ↔ t'.norm = t.norm) := by
  have hp := every_proper_norm hl
  constructor
  · intro hg g' i' t' h' hl' hg'
    rw [Graph.render_of_unfolds h, Graph.render_of_unfolds h', ← text_norm t, ← text_norm t']
    refine ⟨fun htext => ?_, congrArg text⟩
    exact Glsl.eq_of_text_eq (every_settled_iff.mpr ⟨every_proper_norm hl', hg'⟩)
      (every_settled_iff.mpr ⟨hp, hg⟩) htext
  · -- the guarded tree with the same text must be this one
    intro hall
    obtain ⟨u, hu, htext⟩ := exists_guarded hp
    obtain ⟨hproper, hguarded⟩ := every_settled_iff.mp hu
    obtain ⟨more, i', h'⟩ := Graph.exists_unfolds u #[]
    have hnorm : u.norm = u := norm_eq_self (hproper.mono fun _ h => h.1)
    have heq := (hall _ i' u h' (hproper.mono fun _ h => h.2) (by rwa [hnorm])).mp (by
      rw [Graph.render_of_unfolds h, Graph.render_of_unfolds h', htext, text_norm])
    rw [← heq, hnorm]
    exact hguarded

/-- The field of a negation and the negation of a field. -/
def negations : Graph where
  nodes := #[{ kind := .ident "a" }, { kind := .ident "x" }, { kind := .unary .neg 0 },
    { kind := .field 2 1 }, { kind := .field 0 1 }, { kind := .unary .neg 4 }]
  root := 0

theorem unfolds_fieldOfNegation :
    negations.Unfolds 3 (field (unary .neg (ident "a")) (ident "x")) := by
  refine .intro [2, 1] rfl rfl rfl fun p hp => ?_
  simp only [children, List.zip_cons_cons, List.zip_nil_right, List.mem_cons, List.not_mem_nil,
    or_false] at hp
  rcases hp with rfl | rfl
  · refine .intro [0] rfl rfl rfl fun p hp => ?_
    rw [List.mem_singleton.mp hp]
    exact Graph.unfolds_leaf rfl rfl rfl
  · exact Graph.unfolds_leaf rfl rfl rfl

theorem unfolds_negationOfField :
    negations.Unfolds 5 (unary .neg (field (ident "a") (ident "x"))) := by
  refine .intro [4] rfl rfl rfl fun p hp => ?_
  rw [List.mem_singleton.mp hp]
  refine .intro [0, 1] rfl rfl rfl fun p hp => ?_
  simp only [children, List.zip_cons_cons, List.zip_nil_right, List.mem_cons, List.not_mem_nil,
    or_false] at hp
  rcases hp with rfl | rfl <;> exact Graph.unfolds_leaf rfl rfl rfl

theorem proper_negations : (field (unary .neg (ident "a")) (ident "x")).Every Proper ∧
    (unary .neg (field (ident "a") (ident "x"))).Every Proper := by
  have ha : (ident "a").Every Proper :=
    every_of_leaf ⟨trivial, List.all_eq_true.mp rfl, ⟨'a', rfl, rfl⟩, by decide, by decide⟩ rfl
  have hx : (ident "x").Every Proper :=
    every_of_leaf ⟨trivial, List.all_eq_true.mp rfl, ⟨'x', rfl, rfl⟩, by decide, by decide⟩ rfl
  exact ⟨every_of_two ⟨trivial, trivial⟩ rfl (every_of_one ⟨nofun, trivial⟩ rfl ha) hx,
    every_of_one ⟨nofun, trivial⟩ rfl (every_of_two ⟨trivial, trivial⟩ rfl ha hx)⟩

/-- Of all guarded trees only the negation of the field is written `-a.x`. -/
theorem guarded_iff_render_faithful_negations :
    negations.render 5 = "-a.x" ∧ ∀ (g : Graph) (i : Id) (t : Expr), g.Unfolds i t →
      t.Every Legible → t.norm.Guarded → (g.render i = negations.render 5 ↔
        t.norm = (unary .neg (field (ident "a") (ident "x"))).norm) := by
  refine ⟨by decide +kernel, (guarded_iff_render_faithful unfolds_negationOfField
    (proper_negations.2.mono fun _ h => h.2)).mp ?_⟩
  rw [norm_eq_self (proper_negations.2.mono fun _ h => h.1)]
  exact every_of_one nofun rfl (every_of_two ⟨rfl, rfl, rfl⟩ rfl (every_of_leaf trivial rfl)
    (every_of_leaf trivial rfl))

/-- The field of the negation is written `-a.x` as well. -/
theorem render_ambiguous_negations : ¬ ∀ (g g' : Graph) (i i' : Id) (t t' : Expr),
    g.Unfolds i t → g'.Unfolds i' t' → t.Every Legible → t'.Every Legible →
      g.render i = g'.render i' → t.norm = t'.norm := by
  intro h
  have hnorm := h negations negations 3 5 _ _ unfolds_fieldOfNegation unfolds_negationOfField
    (proper_negations.1.mono fun _ h => h.2) (proper_negations.2.mono fun _ h => h.2)
    (by decide +kernel)
  rw [norm_eq_self (proper_negations.1.mono fun _ h => h.1),
    norm_eq_self (proper_negations.2.mono fun _ h => h.1)] at hnorm
  cases hnorm

end ShaderScript
