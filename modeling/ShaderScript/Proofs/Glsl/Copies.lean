import Mathlib.Algebra.BigOperators.Group.List.Basic
import Mathlib.Algebra.Ring.Nat
import ShaderScript.Proofs.Graph.Subtree

/-!
# How often a node is written

A matrix counts its entries column by column, so the access at an unknown position writes the
position three times: for the column, and twice for the row. Every other part of a program is
written once. What lies in a position inside a position is written nine times, and so on.

* `Graph.repeats`: whether an access writes a node three times.
* `Graph.copies`: how often the text of a node shows that of another.
* `Graph.Unshared.copies_eq_sum`, `Graph.Unshared.copies_index`: the copies in a node are those in
  its children, and three times those in an unknown position of a matrix.
-/

namespace ShaderScript

/-- Whether a node is an access by position. -/
def Kind.isIndex : Kind → Bool
  | .index .. => true
  | _ => false

namespace Graph

variable (g : Graph)

/-- Whether `a` is the access to a matrix at an unknown position, with `i` in the position. -/
def repeats (i a : Id) : Bool :=
  match g.kind a with
  | .index object property =>
    ((g.ty? object).bind Ty.dimension?).isSome && (g.literalIndex? property).isNone &&
      decide (i ∈ g.descendants property)
  | _ => false

/-- How often the text of `j` shows the text of `i`. -/
def copies (i j : Id) : Nat :=
  if i ∈ g.descendants j then 3 ^ (g.descendants j).countP (g.repeats i) else 0

variable {g} {i j c o p : Id}

theorem copies_of_notMem (hi : i ∉ g.descendants j) : g.copies i j = 0 := if_neg hi

theorem copies_of_mem (hi : i ∈ g.descendants j) :
    g.copies i j = 3 ^ (g.descendants j).countP (g.repeats i) := if_pos hi

theorem repeats_of_kind (hk : g.kind j = .index o p) :
    g.repeats i j = true ↔ ((g.ty? o).bind Ty.dimension?).isSome = true ∧
      g.literalIndex? p = none ∧ i ∈ g.descendants p := by
  unfold repeats
  simp [hk, and_assoc]

theorem mem_of_repeats (hr : g.repeats i j = true) :
    ∃ c ∈ g.children j, i ∈ g.descendants c := by
  unfold repeats at hr
  split at hr
  · rename_i o p hk
    simp only [Bool.and_eq_true, decide_eq_true_eq] at hr
    refine ⟨p, ?_, hr.2⟩
    rw [children, hk]
    exact List.mem_cons_of_mem o List.mem_cons_self
  · cases hr

namespace Unshared

variable (h : g.Unshared)

include h

theorem mem_descendants_of_child (hj : j ∈ g.live) (hc : c ∈ g.children j)
    (hi : i ∈ g.descendants c) : i ∈ g.descendants j :=
  h.mem_descendants_of_below hj (.step .refl hc) hi

theorem exists_child_of_mem (hj : j ∈ g.live) (hne : j ≠ i) (hi : i ∈ g.descendants j) :
    ∃ c ∈ g.children j, i ∈ g.descendants c := by
  rw [h.descendants_eq hj] at hi
  exact List.mem_flatMap.mp ((List.mem_cons.mp hi).resolve_left (Ne.symm hne))

/-! ## Repetitions -/

theorem countP_repeats_of_notMem (hj : j ∈ g.live) (hi : i ∉ g.descendants j) :
    (g.descendants j).countP (g.repeats i) = 0 := by
  rw [List.countP_eq_zero]
  intro a ha hr
  obtain ⟨d, hd⟩ := (h.mem_descendants_iff hj).mp ha
  obtain ⟨c, hc, hic⟩ := mem_of_repeats hr
  exact hi (h.mem_descendants_of_below hj (.step hd hc) hic)

/-- A count that is zero away from the node is the count at the child above the node. -/
theorem sum_of_child {count : Id → Nat} (hj : j ∈ g.live) (hc : c ∈ g.children j)
    (hi : i ∈ g.descendants c)
    (hcount : ∀ c' ∈ g.children j, i ∉ g.descendants c' → count c' = 0) :
    ((g.children j).map count).sum = count c := by
  rw [List.sum_map_eq_nsmul_single c count, List.count_eq_one_of_mem (h.children_nodup j hj) hc,
    one_nsmul]
  intro c' hne hc'
  exact hcount c' hc' fun hi' => hne (h.child_unique hj hc' hc hi' hi)

theorem countP_repeats_of_child (hj : j ∈ g.live) (hc : c ∈ g.children j)
    (hi : i ∈ g.descendants c) : (g.descendants j).countP (g.repeats i) =
      (g.descendants c).countP (g.repeats i) + if g.repeats i j = true then 1 else 0 := by
  rw [h.descendants_eq hj, List.countP_cons, List.countP_flatMap]
  refine congrArg (· + _) (h.sum_of_child hj hc hi fun c' hc' hi' => ?_)
  exact h.countP_repeats_of_notMem (h.child_live hj hc') hi'

/-! ## Copies -/

theorem copies_self (hi : i ∈ g.live) : g.copies i i = 1 := by
  have hmem : i ∈ g.descendants i := (h.mem_descendants_iff hi).mpr ⟨0, .refl⟩
  have hcount : (g.descendants i).countP (g.repeats i) = 0 := by
    rw [h.descendants_eq hi, List.countP_cons_of_neg, List.countP_flatMap, List.sum_eq_zero]
    · intro n hn
      obtain ⟨c, hc, rfl⟩ := List.mem_map.mp hn
      exact h.countP_repeats_of_notMem (h.child_live hi hc) (h.notMem_descendants_child hi hc)
    · intro hr
      obtain ⟨c, hc, hic⟩ := mem_of_repeats hr
      exact h.notMem_descendants_child hi hc hic
  rw [copies_of_mem hmem, hcount, pow_zero]

theorem copies_of_child (hj : j ∈ g.live) (hc : c ∈ g.children j) (hi : i ∈ g.descendants c) :
    g.copies i j = (if g.repeats i j = true then 3 else 1) * g.copies i c := by
  rw [copies_of_mem (h.mem_descendants_of_child hj hc hi), copies_of_mem hi,
    h.countP_repeats_of_child hj hc hi, pow_add, mul_comm]
  split <;> rfl

/-- **The copies in a node are those in its children**, unless it repeats one of them. -/
theorem copies_eq_sum (hj : j ∈ g.live) (hne : j ≠ i) (hr : g.repeats i j = false) :
    g.copies i j = ((g.children j).map (g.copies i)).sum := by
  by_cases hi : i ∈ g.descendants j
  · obtain ⟨c, hc, hic⟩ := h.exists_child_of_mem hj hne hi
    rw [h.copies_of_child hj hc hic, h.sum_of_child hj hc hic fun _ _ => copies_of_notMem, hr]
    exact one_mul _
  · rw [copies_of_notMem hi, List.sum_eq_zero]
    intro n hn
    obtain ⟨c, hc, rfl⟩ := List.mem_map.mp hn
    exact copies_of_notMem fun hic => hi (h.mem_descendants_of_child hj hc hic)

theorem copies_of_ne (hj : j ∈ g.live) (hne : j ≠ i) {k : Kind} (hk : g.kind j = k)
    (hx : k.isIndex = false) : g.copies i j = (k.children.map (g.copies i)).sum := by
  rw [h.copies_eq_sum hj hne, children, hk]
  unfold repeats
  split
  · rename_i o p hindex
    rw [← hk, hindex] at hx
    cases hx
  · rfl

theorem copies_index_once (hj : j ∈ g.live) (hne : j ≠ i) (hk : g.kind j = .index o p)
    (honce : ¬ (((g.ty? o).bind Ty.dimension?).isSome = true ∧ g.literalIndex? p = none)) :
    g.copies i j = g.copies i o + g.copies i p := by
  have hr : g.repeats i j = false := by
    rw [← Bool.not_eq_true, repeats_of_kind hk]
    exact fun hr => honce ⟨hr.1, hr.2.1⟩
  rw [h.copies_eq_sum hj hne hr, children, hk]
  rfl

theorem copies_index (hj : j ∈ g.live) (hne : j ≠ i) (hk : g.kind j = .index o p)
    (hdim : ((g.ty? o).bind Ty.dimension?).isSome = true) (hlit : g.literalIndex? p = none) :
    g.copies i j = g.copies i o + 3 * g.copies i p := by
  have hchildren : g.children j = [o, p] := congrArg Kind.children hk
  by_cases hi : i ∈ g.descendants p
  · have hr : g.repeats i j = true := (repeats_of_kind hk).mpr ⟨hdim, hlit, hi⟩
    have hp : p ∈ g.children j := hchildren ▸ List.mem_cons_of_mem o List.mem_cons_self
    have hsum := h.sum_of_child hj hp hi fun _ _ => copies_of_notMem (i := i)
    rw [hchildren, List.map_cons, List.map_singleton, List.sum_cons, List.sum_singleton] at hsum
    rw [h.copies_of_child hj hp hi, hr, if_pos rfl]
    omega
  · have hr : g.repeats i j = false := by
      rw [← Bool.not_eq_true, repeats_of_kind hk]
      exact fun hr => hi hr.2.2
    rw [h.copies_eq_sum hj hne hr, hchildren, List.map_cons, List.map_singleton, List.sum_cons,
      List.sum_singleton, copies_of_notMem hi]

end Unshared

end Graph

end ShaderScript
