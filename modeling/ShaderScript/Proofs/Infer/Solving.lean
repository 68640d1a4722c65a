import Mathlib.Data.Finset.Card
import ShaderScript.Proofs.Graph.Edit
import ShaderScript.Proofs.Infer.Firing

/-!
# Spreading types

Types only ever spread within classes, and when nothing is pending any more they have spread
through all of them.

* `Solver.Ends`: how a computation ends, with one rule for each way to build computations.
* `State.work`: the pending nodes and the nodes without type, which bounds the steps to come.
* `Keeps`, `Grows`: what every step leaves as it is, and what `assign` and `share` may add.
* `Context.Justified`: a type that a node may be given. `Context.Blamed`: what an error means.
* `Sound`, `Settled`: the invariant of the loop.
* `ends_assign`, `ends_share`, **`ends_drain`**: one lemma for each operation.
-/

namespace ShaderScript.Infer

/-! ## How computations end -/

/-- Started in `s`, the computation ends well in a state with `Q`, or fails with an error that
has `E`. -/
def Solver.Ends {α : Type} (m : Solver α) (s : State) (Q : α → State → Prop)
    (E : Error → Prop) : Prop :=
  match m.run.run s with
  | (.ok a, s') => Q a s'
  | (.error e, _) => E e

namespace Solver

variable {α β : Type} {s : State} {E : Error → Prop}

theorem ends_pure {a : α} {Q : α → State → Prop} (h : Q a s) : Ends (pure a) s Q E := h

theorem ends_intro {m : Solver α} {Q : α → State → Prop} (hQ : ∀ a s', Q a s') (hE : ∀ e, E e) :
    Ends m s Q E := by
  unfold Ends
  rcases m.run.run s with ⟨e | a, s'⟩
  · exact hE e
  · exact hQ a s'

theorem ends_throw {e : Error} {Q : α → State → Prop} (h : E e) :
    Ends (throw e : Solver α) s Q E := h

theorem ends_get_bind {f : State → Solver α} {Q : α → State → Prop} (h : Ends (f s) s Q E) :
    Ends (get >>= f) s Q E := h

theorem ends_set {s' : State} {Q : PUnit → State → Prop} (h : Q ⟨⟩ s') :
    Ends (set s' : Solver PUnit) s Q E := h

theorem ends_modify {f : State → State} {Q : PUnit → State → Prop} (h : Q ⟨⟩ (f s)) :
    Ends (modify f : Solver PUnit) s Q E := h

theorem run_run_bind (m : Solver α) (f : α → Solver β) : (m >>= f).run.run s =
    match m.run.run s with
    | (.ok a, s') => (f a).run.run s'
    | (.error e, s') => (.error e, s') := by
  rw [ExceptT.run_bind, StateT.run_bind]
  rcases m.run.run s with ⟨_ | _, _⟩ <;> rfl

theorem Ends.bind {m : Solver α} {f : α → Solver β} {P : α → State → Prop}
    {Q : β → State → Prop} (hm : Ends m s P E) (hf : ∀ a s', P a s' → Ends (f a) s' Q E) :
    Ends (m >>= f) s Q E := by
  unfold Ends at hm ⊢
  rw [run_run_bind]
  rcases hr : m.run.run s with ⟨e | a, s'⟩
  · rw [hr] at hm
    exact hm
  · rw [hr] at hm
    exact hf a s' hm

theorem Ends.mono {m : Solver α} {P Q : α → State → Prop} (hm : Ends m s P E)
    (hpq : ∀ a s', P a s' → Q a s') : Ends m s Q E := by
  unfold Ends at hm ⊢
  rcases hr : m.run.run s with ⟨e | a, s'⟩
  · rw [hr] at hm
    exact hm
  · rw [hr] at hm
    exact hpq a s' hm

/-- A loop keeps an invariant, and what a step has brought about stays. -/
theorem ends_forM {xs : List α} {f : α → Solver PUnit} {I : State → Prop}
    {R : State → State → Prop} {P : α → State → Prop} (hrefl : ∀ s, R s s)
    (htrans : ∀ s s' s'', R s s' → R s' s'' → R s s'')
    (hstay : ∀ x s s', R s s' → P x s → P x s')
    (hstep : ∀ x ∈ xs, ∀ s, I s → Ends (f x) s (fun _ s' => I s' ∧ R s s' ∧ P x s') E)
    (hs : I s) : Ends (xs.forM f) s (fun _ s' => I s' ∧ R s s' ∧ ∀ x ∈ xs, P x s') E := by
  induction xs generalizing s with
  | nil =>
    rw [List.forM_eq_forM, List.forM_nil]
    exact ends_pure ⟨hs, hrefl s, fun _ hx => by cases hx⟩
  | cons x xs ih =>
    rw [List.forM_eq_forM, List.forM_cons]
    refine (hstep x List.mem_cons_self s hs).bind fun _ s₁ ⟨hI, hR, hP⟩ => ?_
    refine (ih (fun y hy => hstep y (List.mem_cons_of_mem _ hy)) hI).mono ?_
    rintro _ s₂ ⟨hI', hR', hP'⟩
    refine ⟨hI', htrans _ _ _ hR hR', fun y hy => ?_⟩
    rcases List.mem_cons.mp hy with rfl | hy
    · exact hstay _ _ _ hR' hP
    · exact hP' y hy

end Solver

/-! ## States -/

namespace State

variable {s : State} {i j : Id} {t : Ty} {b : Bool}

/-- The number of nodes without type. -/
def untyped (s : State) : Nat :=
  ((Finset.range s.graph.size).filter fun i => s.graph.ty? i = none).card

/-- The pending nodes and the nodes without type. -/
def work (s : State) : Nat := s.pending.length + s.untyped

theorem untyped_le_size : s.untyped ≤ s.graph.size := by
  unfold untyped
  exact (Finset.card_filter_le _ _).trans (Finset.card_range _).le

theorem ty?_give_self (hi : i < s.graph.size) : (s.give i t b).graph.ty? i = some t := by
  change ((s.graph.modify i _).node i).ty = some t
  rw [Graph.node_modify_self _ _ hi]

theorem ty?_give_of_ne (hij : i ≠ j) : (s.give i t b).graph.ty? j = s.graph.ty? j := by
  change ((s.graph.modify i _).node j).ty = _
  rw [Graph.node_modify_of_ne _ _ hij]
  rfl

theorem untyped_give (hi : i < s.graph.size) (hn : s.graph.ty? i = none) :
    (s.give i t b).untyped + 1 = s.untyped := by
  have herase : ((Finset.range (s.give i t b).graph.size).filter fun j =>
      (s.give i t b).graph.ty? j = none) =
      ((Finset.range s.graph.size).filter fun j => s.graph.ty? j = none).erase i := by
    ext j
    have hsize : (s.give i t b).graph.size = s.graph.size := Graph.size_modify _ _ _
    rw [Finset.mem_erase, Finset.mem_filter, Finset.mem_filter, Finset.mem_range,
      Finset.mem_range, hsize]
    by_cases hij : i = j
    · subst hij
      simp [ty?_give_self hi]
    · rw [ty?_give_of_ne hij]
      exact ⟨fun hj => ⟨Ne.symm hij, hj⟩, fun hj => hj.2⟩
  unfold untyped
  rw [herase]
  refine Finset.card_erase_add_one ?_
  rw [Finset.mem_filter, Finset.mem_range]
  exact ⟨hi, hn⟩

theorem work_give (hi : i < s.graph.size) (hn : s.graph.ty? i = none) :
    (s.give i t b).work = s.work := by
  have hu := untyped_give (t := t) (b := b) hi hn
  have hp : (s.give i t b).pending.length = s.pending.length + 1 := rfl
  unfold work
  omega

end State

/-- What every step leaves as it is: types that have been found, hints and positions. -/
structure Keeps (s s' : State) : Prop where
  size : s'.graph.size = s.graph.size
  ty : ∀ {i t}, s.graph.ty? i = some t → s'.graph.ty? i = some t
  hint : ∀ i, (s'.graph.node i).hint = (s.graph.node i).hint
  topIndex : ∀ i, (s'.graph.node i).topIndex = (s.graph.node i).topIndex

namespace Keeps

variable {s s' s'' : State}

theorem refl (s : State) : Keeps s s := ⟨rfl, id, fun _ => rfl, fun _ => rfl⟩

theorem trans (h : Keeps s s') (h' : Keeps s' s'') : Keeps s s'' :=
  ⟨h'.size.trans h.size, fun ht => h'.ty (h.ty ht), fun i => (h'.hint i).trans (h.hint i),
    fun i => (h'.topIndex i).trans (h.topIndex i)⟩

theorem none_of_none (h : Keeps s s') {i : Id} (hi : s'.graph.ty? i = none) :
    s.graph.ty? i = none := by
  cases ht : s.graph.ty? i with
  | none => rfl
  | some t => rw [h.ty ht] at hi; cases hi

theorem untyped_le (h : Keeps s s') : s'.untyped ≤ s.untyped := by
  refine Finset.card_le_card fun i hi => ?_
  rw [Finset.mem_filter, Finset.mem_range] at hi ⊢
  exact ⟨h.size ▸ hi.1, h.none_of_none hi.2⟩

theorem untyped_lt (h : Keeps s s') {i : Id} (hi : i < s.graph.size)
    (hn : s.graph.ty? i = none) (ht : s'.graph.ty? i ≠ none) : s'.untyped < s.untyped := by
  refine Finset.card_lt_card ⟨fun j hj => ?_, fun hsub => ?_⟩
  · rw [Finset.mem_filter, Finset.mem_range] at hj ⊢
    exact ⟨h.size ▸ hj.1, h.none_of_none hj.2⟩
  · have := hsub (Finset.mem_filter.mpr ⟨Finset.mem_range.mpr hi, hn⟩)
    exact ht (Finset.mem_filter.mp this).2

end Keeps

/-- What `assign` and `share` do to a state: nodes that get a type become pending. -/
structure Grows (s s' : State) : Prop extends Keeps s s' where
  pending : ∀ i ∈ s.pending, i ∈ s'.pending
  fresh : ∀ i, s.graph.ty? i = none → s'.graph.ty? i ≠ none → i ∈ s'.pending
  work : s'.work = s.work

namespace Grows

variable {s s' s'' : State}

theorem refl (s : State) : Grows s s :=
  ⟨.refl s, fun _ h => h, fun _ hn ht => absurd hn ht, rfl⟩

theorem trans (h : Grows s s') (h' : Grows s' s'') : Grows s s'' := by
  refine ⟨h.toKeeps.trans h'.toKeeps, fun i hi => h'.pending i (h.pending i hi),
    fun i hn ht => ?_, h'.work.trans h.work⟩
  by_cases hn' : s'.graph.ty? i = none
  · exact h'.fresh i hn' ht
  · exact h'.pending i (h.fresh i hn hn')

theorem give {i : Id} {t : Ty} {b : Bool} (hi : i < s.graph.size)
    (hn : s.graph.ty? i = none) : Grows s (s.give i t b) where
  size := Graph.size_modify _ _ _
  ty {j u} hu := by
    have hij : i ≠ j := fun he => by rw [he, hu] at hn; cases hn
    rw [State.ty?_give_of_ne hij, hu]
  hint j := by
    refine Graph.node_modify_congr s.graph _ Node.hint ?_ i j
    exact fun _ => rfl
  topIndex j := by
    refine Graph.node_modify_congr s.graph _ Node.topIndex ?_ i j
    exact fun _ => rfl
  pending j hj := List.mem_cons_of_mem _ hj
  fresh j hj ht := by
    by_cases hij : i = j
    · exact hij ▸ List.mem_cons_self
    · rw [State.ty?_give_of_ne hij] at ht
      exact absurd hj ht
  work := State.work_give hi hn

end Grows

/-! ## What may be found and what may be reported -/

namespace Context

variable {c : Context}

/-- Two nodes of one class to which the program gives different types. -/
def Conflict (c : Context) : Prop :=
  ∃ i j t u, c.Same i j ∧ c.Seed i t ∧ c.Seed j u ∧ t ≠ u

/-- A class without evidence that is indexed at position `k`, where no type has one. -/
def OutOfRange (c : Context) (k : Nat) : Prop :=
  16 ≤ k ∧ ∃ i ∈ c.order, (∀ t, ¬ c.Seeded i t) ∧ c.Indexed i k

/-- What an error of inference says about the program. -/
def Blamed (c : Context) : Error → Prop
  | .typeContradiction .. => c.Conflict
  | .indexOutOfRange _ k => c.OutOfRange k
  | _ => True

/-- A type that a node may be given: its class has evidence for it, or has none at all and the
reference falls back on it. -/
def Justified (c : Context) (i : Id) (t : Ty) : Prop :=
  c.Seeded i t ∨ (∀ u, ¬ c.Seeded i u) ∧ c.Reference i (some t)

theorem Justified.congr {i j : Id} {t : Ty} (h : c.Same i j) (ht : c.Justified i t) :
    c.Justified j t := by
  rcases ht with ht | ⟨hn, ht⟩
  · exact .inl (ht.congr h)
  · exact .inr ⟨fun u hu => hn u (hu.congr h.symm), ht.congr h⟩

/-- Only evidence justifies two types of one node. -/
theorem conflict_of_justified {i : Id} {t u : Ty} (ht : c.Justified i t) (hu : c.Justified i u)
    (hne : t ≠ u) : c.Conflict := by
  rcases ht with ⟨j, hj, hjt⟩ | ⟨hn, ht⟩
  · rcases hu with ⟨k, hk, hku⟩ | ⟨hn, -⟩
    · exact ⟨j, k, t, u, hj.symm.trans hk, hjt, hku, hne⟩
    · exact absurd ⟨j, hj, hjt⟩ (hn t)
  · rcases hu with hu | ⟨-, hu⟩
    · exact absurd hu (hn u)
    · exact absurd (Option.some.inj (ht.unique hu)) hne

end Context

/-! ## The invariant -/

/-- Types are justified and the same within each binding, and what is pending has one. -/
structure Sound (c : Context) (s : State) : Prop where
  size : s.graph.size = c.graph.size
  justified : ∀ i ∈ c.order, ∀ t, s.graph.ty? i = some t → c.Justified i t
  pending : ∀ i ∈ s.pending, i ∈ c.order ∧ s.graph.ty? i ≠ none
  uniform : ∀ i ∈ c.order, ∀ j ∈ c.scopes.occurrences i, s.graph.ty? j = s.graph.ty? i

/-- The pairs of every node with a type agree, except for the nodes of a list. -/
def Settled (c : Context) (front : List Id) (s : State) : Prop :=
  ∀ i ∈ c.order, s.graph.ty? i ≠ none → i ∉ front → ∀ p ∈ c.links i, p.1 = i ∨ p.2 = i →
    s.graph.ty? p.1 = s.graph.ty? p.2

/-- Nodes that get a type become pending, so the others stay settled. -/
theorem Settled.grows {c : Context} {front : List Id} {s s' : State} (h : Grows s s')
    (hs : Settled c (front ++ s.pending) s) : Settled c (front ++ s'.pending) s' := by
  intro i hi ht hf p hp htouch
  rw [List.mem_append, not_or] at hf
  cases hti : s.graph.ty? i with
  | none => exact absurd (h.fresh i hti ht) hf.2
  | some t =>
    have hf' : i ∉ front ++ s.pending := by
      rw [List.mem_append, not_or]
      exact ⟨hf.1, fun hm => hf.2 (h.pending i hm)⟩
    have hagree := hs i hi (by rw [hti]; exact Option.some_ne_none t) hf' p hp htouch
    rcases htouch with rfl | rfl
    · rw [h.ty hti, h.ty (hagree ▸ hti)]
    · rw [h.ty hti, h.ty (hagree ▸ hti)]

theorem Sound.closed {c : Context} {s : State} (h : Sound c s) (hs : Settled c [] s) :
    c.Closed s.graph.ty? :=
  ⟨h.uniform, fun i hi ht => hs i hi ht List.not_mem_nil⟩

theorem Context.same_of_mem_occurrences {g : Graph} {i j : Id} (hi : i ∈ g.live)
    (hj : j ∈ (Scopes.resolve g).occurrences i) : g.context.Same i j := by
  rcases Scopes.mem_occurrences_iff.mp hj with rfl | ⟨-, hjl, k, hki, hkj⟩
  · exact .refl j
  · obtain ⟨b, hb, hbk, hib⟩ := Scopes.exists_binding hi hki
    exact (Context.Joined.binding hb hib
      ((Scopes.mem_binding_iff hb).mpr ⟨hjl, hbk ▸ hkj⟩)).same

/-! ## The operations -/

section Operations

open Solver

variable {g : Graph} (h : g.Inferable)

include h

theorem ends_assignNode {t : Ty} {b : Bool} {i : Id} {s : State} (hi : i ∈ g.live)
    (hsize : s.graph.size = g.size)
    (hjust : ∀ u, s.graph.ty? i = some u → g.context.Justified i u)
    (ht : g.context.Justified i t) :
    Ends (assignNode t b i) s (fun _ s' => Grows s s' ∧ s'.graph.ty? i = some t ∧
      (∀ j, j ≠ i → s'.graph.ty? j = s.graph.ty? j) ∧ ∀ j ∈ s'.pending, j = i ∨ j ∈ s.pending)
      g.context.Blamed := by
  unfold assignNode
  apply ends_get_bind
  cases hti : s.graph.ty? i with
  | some found =>
    simp only
    split_ifs with hf
    · subst hf
      exact ends_pure ⟨.refl s, hti, fun _ _ => rfl, fun _ hj => .inr hj⟩
    · exact ends_throw (Context.conflict_of_justified (hjust _ hti) ht hf)
  | none =>
    have hlt : i < s.graph.size := hsize ▸ h.tree.lt_size hi
    refine ends_set ⟨.give hlt hti, State.ty?_give_self hlt,
      fun j hj => State.ty?_give_of_ne (Ne.symm hj), fun j hj => ?_⟩
    exact List.mem_cons.mp hj

/-- **Giving a type to a node gives it to its whole binding and touches nothing else.** -/
theorem ends_assign {t : Ty} {b : Bool} {i : Id} {s : State} (hi : i ∈ g.live)
    (hs : Sound g.context s) (ht : g.context.Justified i t) :
    Ends (assign g.context i t b) s
      (fun _ s' => Sound g.context s' ∧ Grows s s' ∧ s'.graph.ty? i = some t)
      g.context.Blamed := by
  have hocc : ∀ j ∈ (Scopes.resolve g).occurrences i, j ∈ g.live ∧ g.context.Same i j :=
    fun j hj => ⟨Scopes.live_of_mem_occurrences hi hj, Context.same_of_mem_occurrences hi hj⟩
  unfold assign
  refine (ends_forM (I := fun s' => s'.graph.size = g.size ∧
      (∀ j ∈ g.live, ∀ u, s'.graph.ty? j = some u → g.context.Justified j u) ∧
      (∀ j ∈ s'.pending, j ∈ g.live ∧ s'.graph.ty? j ≠ none) ∧
      ∀ j ∉ (Scopes.resolve g).occurrences i, s'.graph.ty? j = s.graph.ty? j)
    (R := Grows) (P := fun j s' => s'.graph.ty? j = some t) Grows.refl
    (fun _ _ _ => Grows.trans) (fun _ _ _ hg => hg.ty) ?_
    ⟨hs.size, hs.justified, hs.pending, fun _ _ => rfl⟩).mono ?_
  · rintro j hj s₁ ⟨hsize, hjust, hpend, hrest⟩
    obtain ⟨hjl, hij⟩ := hocc j hj
    refine (ends_assignNode h hjl hsize (hjust j hjl) (ht.congr hij)).mono ?_
    rintro _ s₂ ⟨hgrow, htj, hother, hpend'⟩
    refine ⟨⟨hgrow.size.trans hsize, ?_, ?_, ?_⟩, hgrow, htj⟩
    · intro k hk u hu
      by_cases hkj : k = j
      · subst hkj
        rw [htj] at hu
        cases hu
        exact ht.congr hij
      · rw [hother k hkj] at hu
        exact hjust k hk u hu
    · intro k hk
      rcases hpend' k hk with rfl | hk
      · exact ⟨hjl, by rw [htj]; exact Option.some_ne_none t⟩
      · obtain ⟨hkl, hkt⟩ := hpend k hk
        exact ⟨hkl, fun hn => hkt (hgrow.none_of_none hn)⟩
    · intro k hk
      rw [hother k fun he => hk (he ▸ hj)]
      exact hrest k hk
  · rintro _ s' ⟨⟨hsize, hjust, hpend, hrest⟩, hgrow, hall⟩
    refine ⟨⟨hsize, hjust, hpend, fun k hk j hj => ?_⟩, hgrow,
      hall i (Scopes.self_mem_occurrences i)⟩
    by_cases hki : k ∈ (Scopes.resolve g).occurrences i
    · rw [hall k hki, hall j (Scopes.mem_occurrences_trans hki hj)]
    · have hji : j ∉ (Scopes.resolve g).occurrences i := fun hji =>
        hki (Scopes.mem_occurrences_trans hji (Scopes.mem_occurrences_symm hj))
      rw [hrest k hki, hrest j hji]
      exact hs.uniform k hk j hj

/-- **A pair of nodes agrees afterwards** if one of them has a type before. -/
theorem ends_share {p : Id × Id} {s : State} (h₁ : p.1 ∈ g.live) (h₂ : p.2 ∈ g.live)
    (hp : g.context.Same p.1 p.2) (hs : Sound g.context s) :
    Ends (share g.context p) s
      (fun _ s' => Sound g.context s' ∧ Grows s s' ∧
        (s.graph.ty? p.1 ≠ none ∨ s.graph.ty? p.2 ≠ none →
          ∃ t, s'.graph.ty? p.1 = some t ∧ s'.graph.ty? p.2 = some t))
      g.context.Blamed := by
  unfold share
  apply ends_get_bind
  dsimp only
  cases ht₁ : s.graph.ty? p.1 with
  | some t =>
    have hjust := hs.justified p.1 h₁ t ht₁
    cases ht₂ : s.graph.ty? p.2 with
    | some u =>
      simp only
      split_ifs with htu
      · subst htu
        exact ends_pure ⟨hs, .refl s, fun _ => ⟨t, ht₁, ht₂⟩⟩
      · exact ends_throw (Context.conflict_of_justified (hjust.congr hp)
          (hs.justified p.2 h₂ u ht₂) htu)
    | none =>
      refine (ends_assign h h₂ hs (hjust.congr hp)).mono ?_
      rintro _ s' ⟨hs', hgrow, ht'⟩
      exact ⟨hs', hgrow, fun _ => ⟨t, hgrow.ty ht₁, ht'⟩⟩
  | none =>
    cases ht₂ : s.graph.ty? p.2 with
    | some u =>
      refine (ends_assign h h₁ hs ((hs.justified p.2 h₂ u ht₂).congr hp.symm)).mono ?_
      rintro _ s' ⟨hs', hgrow, ht'⟩
      exact ⟨hs', hgrow, fun _ => ⟨u, ht', hgrow.ty ht₂⟩⟩
    | none => exact ends_pure ⟨hs, .refl s, fun ht => by simp at ht⟩

theorem ends_forM_share {i : Id} {s : State} (hi : i ∈ g.live) (ht : s.graph.ty? i ≠ none)
    (hs : Sound g.context s) :
    Ends ((g.context.links i).forM (share g.context)) s
      (fun _ s' => Sound g.context s' ∧ Grows s s' ∧ ∀ p ∈ g.context.links i, p.1 = i ∨ p.2 = i →
        s'.graph.ty? p.1 = s'.graph.ty? p.2)
      g.context.Blamed := by
  refine (ends_forM (I := fun s => Sound g.context s ∧ s.graph.ty? i ≠ none) (R := Grows)
    (P := fun p s => p.1 = i ∨ p.2 = i → ∃ t, s.graph.ty? p.1 = some t ∧ s.graph.ty? p.2 = some t)
    Grows.refl (fun _ _ _ => Grows.trans) ?_ ?_ ⟨hs, ht⟩).mono ?_
  · intro p s₁ s₂ hgrow hp htouch
    obtain ⟨t, h₁, h₂⟩ := hp htouch
    exact ⟨t, hgrow.ty h₁, hgrow.ty h₂⟩
  · rintro p hp s₁ ⟨hs₁, ht₁⟩
    have hlink := Context.linked_of_mem_links h.tree hi hp
    have hlive : p.1 ∈ g.live ∧ p.2 ∈ g.live :=
      hlink.elim (fun hj => hj.live h.tree) fun hj => (hj.live h.tree).symm
    refine (ends_share h hlive.1 hlive.2 hlink.same hs₁).mono ?_
    rintro _ s₂ ⟨hs₂, hgrow, hagree⟩
    refine ⟨⟨hs₂, fun hn => ht₁ (hgrow.none_of_none hn)⟩, hgrow, fun htouch => hagree ?_⟩
    rcases htouch with rfl | rfl
    · exact .inl ht₁
    · exact .inr ht₁
  · rintro _ s' ⟨⟨hs', -⟩, hgrow, hall⟩
    refine ⟨hs', hgrow, fun p hp htouch => ?_⟩
    obtain ⟨t, h₁, h₂⟩ := hall p hp htouch
    rw [h₁, h₂]

theorem ends_drainUpTo {n : Nat} {s : State} (hs : Sound g.context s)
    (hset : Settled g.context s.pending s) (hwork : s.work ≤ n) :
    Ends (drainUpTo g.context n) s
      (fun _ s' => Sound g.context s' ∧ s'.pending = [] ∧ Settled g.context [] s' ∧ Keeps s s')
      g.context.Blamed := by
  induction n generalizing s with
  | zero =>
    have hp : s.pending = [] := by
      unfold State.work at hwork
      exact List.eq_nil_of_length_eq_zero (by omega)
    exact ends_pure ⟨hs, hp, hp ▸ hset, .refl s⟩
  | succ n ih =>
    unfold drainUpTo
    apply ends_get_bind
    cases hp : s.pending with
    | nil => exact ends_pure ⟨hs, hp, hp ▸ hset, .refl s⟩
    | cons i rest =>
      obtain ⟨hi, ht⟩ := hs.pending i (by rw [hp]; exact List.mem_cons_self)
      let s₀ : State := { s with pending := rest }
      have hs₀ : Sound g.context s₀ := ⟨hs.size, hs.justified,
        fun j hj => hs.pending j (by rw [hp]; exact List.mem_cons_of_mem _ hj), hs.uniform⟩
      have hset₀ : Settled g.context ([i] ++ s₀.pending) s₀ := by
        rw [hp] at hset
        exact hset
      have hwork₀ : s₀.work + 1 = s.work := by
        have hlen : s.pending.length = s₀.pending.length + 1 := by rw [hp]; rfl
        have hun : s₀.untyped = s.untyped := rfl
        unfold State.work
        omega
      refine (ends_set (Q := fun _ s' => s' = s₀) rfl).bind ?_
      rintro _ _ rfl
      refine (ends_forM_share (s := s₀) h hi ht hs₀).bind ?_
      rintro _ s₁ ⟨hs₁, hgrow, hagree⟩
      have hset₁ : Settled g.context s₁.pending s₁ := by
        intro j hj htj hjp p hmem htouch
        by_cases hji : j = i
        · subst hji
          exact hagree p hmem htouch
        · exact hset₀.grows hgrow j hj htj (by simp [hji, hjp]) p hmem htouch
      refine (ih hs₁ hset₁ (by rw [hgrow.work]; omega)).mono ?_
      rintro _ s' ⟨hs', hnil, hset', hkeep⟩
      have hkeep₀ : Keeps s s₀ := ⟨rfl, id, fun _ => rfl, fun _ => rfl⟩
      exact ⟨hs', hnil, hset', hkeep₀.trans (hgrow.toKeeps.trans hkeep)⟩

/-- **Draining comes to rest**: nothing is pending and all pairs agree. -/
theorem ends_drain {s : State} (hs : Sound g.context s) (hset : Settled g.context s.pending s)
    (hwork : s.work ≤ g.size) :
    Ends (drain g.context) s
      (fun _ s' => Sound g.context s' ∧ s'.pending = [] ∧ Settled g.context [] s' ∧ Keeps s s')
      g.context.Blamed :=
  ends_drainUpTo h hs hset hwork

end Operations

end ShaderScript.Infer
