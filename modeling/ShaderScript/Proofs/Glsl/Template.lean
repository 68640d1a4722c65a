import Mathlib.Algebra.BigOperators.Group.List.Basic
import Mathlib.Algebra.Ring.Nat
import ShaderScript.Glsl.Text

/-!
# Texts with holes

Where a text is put in for a part of a program, the text around it stays. So the text of the whole
is a template, and the part contributes as often as the template has holes.

* `Template`: a text with holes, with `Template.fill` and `Template.holes`.
* `Shows`, `ShowsLines`: a family of texts, or of lists of lines, is one template filled with
  another family.
* One rule for each way in which texts are put together: `Shows.append`, `Shows.signed`,
  `Shows.indexText_unknown`, `ShowsLines.flatMap`, `ShowsLines.intercalate`, …

A sign looks at the first character of what follows it, so families are over texts that start with
the same one.
-/

namespace ShaderScript

/-- A text with holes: its pieces in order, `none` for a hole. -/
abbrev Template := List (Option String)

namespace Template

variable (t u : Template) (s : String)

/-- The text with every hole filled. -/
def fill : String := String.join (t.map (·.getD s))

/-- The number of holes. -/
def holes : Nat := t.count none

theorem fill_cons (piece : Option String) : fill (piece :: t) s = piece.getD s ++ t.fill s :=
  String.join_cons

@[simp] theorem fill_append : fill (t ++ u) s = t.fill s ++ u.fill s := by
  unfold fill
  rw [List.map_append, String.join_append]

@[simp] theorem holes_append : holes (t ++ u) = t.holes + u.holes := List.count_append

theorem length_fill : (t.fill s).length = (t.fill "").length + t.holes * s.length := by
  induction t with
  | nil => simp [fill, holes]
  | cons piece t ih =>
    unfold holes at ih ⊢
    rw [fill_cons, fill_cons, String.length_append, String.length_append, ih, List.count_cons]
    cases piece with
    | none =>
      simp only [Option.getD_none, BEq.rfl, if_true, Nat.add_mul, String.length_empty]
      omega
    | some text =>
      simp only [Option.getD_some, reduceCtorEq, if_false, beq_iff_eq, Nat.add_zero]
      omega

variable {s} {t}

theorem fill_of_holes_eq_zero (h : t.holes = 0) (s s' : String) : t.fill s = t.fill s' := by
  refine congrArg String.join (List.map_congr_left fun piece hpiece => ?_)
  cases piece with
  | none => exact absurd hpiece (List.count_eq_zero.mp h)
  | some text => rfl

variable (t)

/-- A template starts with the same character, whichever text of that start it is filled with. -/
theorem front?_fill {s' : String} (h : s.front? = s'.front?) :
    (t.fill s).front? = (t.fill s').front? := by
  simp only [String.front?_eq] at h ⊢
  induction t with
  | nil => rfl
  | cons piece t ih =>
    simp only [fill_cons, String.toList_append, List.head?_append, ih]
    cases piece with
    | none => simp only [Option.getD_none, h]
    | some text => rfl

end Template

variable {ι α : Type} {s : ι → String} {n m : Nat} {p q : ι → String}

/-- The texts `p` are one template with `n` holes, filled with the texts `s`. -/
def Shows (s : ι → String) (n : Nat) (p : ι → String) : Prop :=
  ∃ t : Template, t.holes = n ∧ ∀ v, p v = t.fill (s v)

/-- The lines `p` are templates with `n` holes in all, filled with the texts `s`. -/
def ShowsLines (s : ι → String) (n : Nat) (p : ι → List String) : Prop :=
  ∃ ts : List Template, (ts.map Template.holes).sum = n ∧ ∀ v, p v = ts.map (·.fill (s v))

/-! ## Texts -/

namespace Shows

theorem const (c : String) : Shows s 0 fun _ => c :=
  ⟨[some c], rfl, fun v => by simp [Template.fill]⟩

theorem self : Shows s 1 s := ⟨[none], rfl, fun v => by simp [Template.fill]⟩

theorem append (hp : Shows s n p) (hq : Shows s m q) : Shows s (n + m) fun v => p v ++ q v := by
  obtain ⟨t, rfl, ht⟩ := hp
  obtain ⟨u, rfl, hu⟩ := hq
  exact ⟨t ++ u, t.holes_append u, fun v => by simp only [ht, hu, Template.fill_append]⟩

theorem append_const (hp : Shows s n p) (c : String) : Shows s n fun v => p v ++ c :=
  hp.append (.const c)

theorem const_append (c : String) (hp : Shows s n p) : Shows s n fun v => c ++ p v := by
  have h := (Shows.const (s := s) c).append hp
  rwa [Nat.zero_add] at h

theorem eq_of_zero (hp : Shows s 0 p) (v w : ι) : p v = p w := by
  obtain ⟨t, ht, hfill⟩ := hp
  rw [hfill, hfill]
  exact Template.fill_of_holes_eq_zero ht _ _

theorem comp (hp : Shows s 0 p) (f : String → String) : Shows s 0 fun v => f (p v) := by
  obtain ⟨t, ht, hfill⟩ := hp
  have hsame : ∀ v, p v = t.fill "" := fun v =>
    (hfill v).trans (Template.fill_of_holes_eq_zero ht (s v) "")
  simpa only [hsame] using .const (f (t.fill ""))

section Front

variable (hs : ∀ v w, (s v).front? = (s w).front?)

include hs

theorem front? (hp : Shows s n p) (v w : ι) : (p v).front? = (p w).front? := by
  obtain ⟨t, -, ht⟩ := hp
  rw [ht, ht]
  exact t.front?_fill (hs v w)

theorem signed (sign : Char) (hp : Shows s n p) : Shows s n fun v => Glsl.signed sign (p v) := by
  unfold Glsl.signed
  -- either all of the texts start with the sign, or none does
  by_cases hfront : ∃ w, (p w).front? = some sign
  · obtain ⟨w, hw⟩ := hfront
    simpa only [hp.front? hs _ w, hw, if_true] using (hp.const_append _).append_const _
  · simpa only [not_exists.mp hfront, if_false] using hp.const_append _

theorem unaryText (op : UnaryOp) (hp : Shows s n p) :
    Shows s n fun v => Glsl.unaryText op (p v) := by
  cases op with
  | plus => exact hp
  | neg => exact hp.signed hs '-'
  | not => exact hp.signed hs '!'

end Front

theorem binaryText (op : BinaryOp) (hp : Shows s n p) (hq : Shows s m q) :
    Shows s (n + m) fun v => Glsl.binaryText op (p v) (q v) := by
  unfold Glsl.binaryText
  split
  · exact (((hp.const_append _).append_const _).append hq).append_const _
  · exact (((((hp.const_append _).append_const _).append_const _).append_const _).append
      hq).append_const _

theorem updateText (op : UpdateOp) (leading : Bool) (hp : Shows s n p) :
    Shows s n fun v => Glsl.updateText op leading (p v) := by
  unfold Glsl.updateText
  cases leading with
  | true => exact hp.const_append _
  | false => exact hp.append_const _

theorem indexText_known (d j : Nat) (hp : Shows s n p) :
    Shows s n fun v => Glsl.indexText (some d) (some j) (p v) (q v) :=
  ((((hp.append_const _).append_const _).append_const _).append_const _).append_const _

theorem indexText_unknown (d : Nat) (hp : Shows s n p) (hq : Shows s m q) :
    Shows s (n + 3 * m) fun v => Glsl.indexText (some d) none (p v) (q v) := by
  have hdivided := (hq.const_append "(").append_const " / "
  have hcolumn := (hdivided.append_const (toString d)).append_const ")"
  have hrow := (hq.append_const " - (").append hcolumn
  have hboth := (((hp.append_const "[").append hcolumn).append_const "][(").append hrow
  have hall := ((hboth.append_const " * ").append_const (toString d)).append_const "))]"
  have hsum : n + m + (m + m) = n + 3 * m := by omega
  rw [hsum] at hall
  simpa only [Glsl.indexText, String.append_assoc] using hall

theorem indexText_plain (literal : Option Nat) (hp : Shows s n p) (hq : Shows s m q) :
    Shows s (n + m) fun v => Glsl.indexText none literal (p v) (q v) :=
  ((hp.append_const _).append hq).append_const _

end Shows

/-! ## Lines -/

namespace ShowsLines

variable {a b : ι → List String}

theorem nil : ShowsLines s 0 fun _ => [] := ⟨[], rfl, fun _ => rfl⟩

theorem cons (hp : Shows s n p) (ha : ShowsLines s m a) :
    ShowsLines s (n + m) fun v => p v :: a v := by
  obtain ⟨t, rfl, ht⟩ := hp
  obtain ⟨ts, rfl, hts⟩ := ha
  exact ⟨t :: ts, rfl, fun v => by simp only [ht, hts, List.map_cons]⟩

theorem singleton (hp : Shows s n p) : ShowsLines s n fun v => [p v] := cons hp nil

theorem append (ha : ShowsLines s n a) (hb : ShowsLines s m b) :
    ShowsLines s (n + m) fun v => a v ++ b v := by
  obtain ⟨ts, rfl, hts⟩ := ha
  obtain ⟨us, rfl, hus⟩ := hb
  refine ⟨ts ++ us, ?_, fun v => by simp only [hts, hus, List.map_append]⟩
  rw [List.map_append, List.sum_append]

theorem append_const (ha : ShowsLines s n a) (c : String) : ShowsLines s n fun v => a v ++ [c] :=
  ha.append (.singleton (.const c))

theorem map {xs : List α} {count : α → Nat} {text : ι → α → String}
    (h : ∀ x ∈ xs, Shows s (count x) fun v => text v x) :
    ShowsLines s (xs.map count).sum fun v => xs.map (text v) := by
  induction xs with
  | nil => exact nil
  | cons x xs ih =>
    exact cons (h x List.mem_cons_self) (ih fun y hy => h y (List.mem_cons_of_mem x hy))

theorem flatMap {xs : List α} {count : α → Nat} {lines : ι → α → List String}
    (h : ∀ x ∈ xs, ShowsLines s (count x) fun v => lines v x) :
    ShowsLines s (xs.map count).sum fun v => xs.flatMap (lines v) := by
  induction xs with
  | nil => exact nil
  | cons x xs ih =>
    exact append (h x List.mem_cons_self) (ih fun y hy => h y (List.mem_cons_of_mem x hy))

theorem indented (indent : String) (ha : ShowsLines s n a) :
    ShowsLines s n fun v => (a v).map (indent ++ ·) := by
  obtain ⟨ts, rfl, hts⟩ := ha
  refine ⟨ts.map (some indent :: ·), ?_, fun v => ?_⟩
  · rw [List.map_map]
    refine congrArg List.sum (List.map_congr_left fun t _ => ?_)
    exact List.count_cons_of_ne (Option.some_ne_none indent)
  · simp only [hts, List.map_map]
    exact List.map_congr_left fun t _ => (t.fill_cons (s v) (some indent)).symm

theorem continued (ha : ShowsLines s n a) : ShowsLines s n fun v => Glsl.continued (a v) := by
  obtain ⟨ts, rfl, hts⟩ := ha
  simp only [hts]
  cases ts with
  | nil => exact nil
  | cons t ts =>
    refine cons (p := fun v => "\x7d else " ++ t.fill (s v)) ?_ ⟨ts, rfl, fun _ => rfl⟩
    exact Shows.const_append _ ⟨t, rfl, fun _ => rfl⟩

theorem intercalate (sep : String) (ha : ShowsLines s n a) :
    Shows s n fun v => sep.intercalate (a v) := by
  obtain ⟨ts, rfl, hts⟩ := ha
  simp only [hts]
  clear hts
  induction ts with
  | nil => simpa using .const ""
  | cons t ts ih =>
    have ht : Shows s t.holes fun v => t.fill (s v) := ⟨t, rfl, fun _ => rfl⟩
    cases ts with
    | nil => simpa using ht
    | cons u us =>
      have happ := (ht.append_const sep).append ih
      simpa only [List.map_cons, List.sum_cons, String.intercalate_cons_cons] using happ

end ShowsLines

end ShaderScript
