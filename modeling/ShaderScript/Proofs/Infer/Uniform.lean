import ShaderScript.Proofs.Infer.Shape

/-!
# Bindings get their types as a whole

Giving a type to a node gives it to its whole binding. So if the nodes of each binding have one type
before inference they have one type after it, also where it fails.

* `Uniform`: the nodes of each binding have one type.
* `ends_forM_assignNode`: nodes without type can all be given one.
* `leaves_assign_uniform`: giving a type to a binding, whether it succeeds or not.
* **`uniform_infer`**: inference keeps types uniform.
-/

namespace ShaderScript

namespace Infer

open Solver

theorem Solver.Ends.leaves {α : Type} {m : Solver α} {s : State} {J : Graph → Prop}
    (h : Ends m s (fun _ s' => J s'.graph) fun _ => False) :
    Leaves m s J := by
  unfold Ends at h
  unfold Leaves
  rcases hr : m.run.run s with ⟨e | a, s'⟩
  · rw [hr] at h
    exact h.elim
  · rw [hr] at h
    exact h

/-- The nodes of each binding have one type, and for all of them it is a guess or for none. -/
def Uniform (c : Context) (x : Graph) : Prop :=
  ∀ i, ∀ j ∈ c.scopes.occurrences i,
    x.ty? j = x.ty? i ∧ (x.node j).guessed = (x.node i).guessed

/-- The node has a type that was given to it in a certain way. -/
def Given (t : Ty) (b : Bool) (x : Graph) (i : Id) : Prop :=
  x.ty? i = some t ∧ (x.node i).guessed = b

theorem ends_forM_assignNode {t : Ty} {b : Bool} {xs : List Id} {s : State}
    (hxs : ∀ i ∈ xs, s.graph.ty? i = none) :
    Ends (xs.forM (assignNode t b)) s (fun _ s' =>
      (∀ i ∈ xs, i < s.graph.size → Given t b s'.graph i) ∧
      ∀ i ∉ xs, s'.graph.node i = s.graph.node i) (fun _ => False) := by
  refine (ends_forM (I := fun s' => s'.graph.size = s.graph.size ∧
      (∀ i ∈ xs, s'.graph.ty? i = none ∨ Given t b s'.graph i) ∧
      ∀ i ∉ xs, s'.graph.node i = s.graph.node i)
    (R := fun s s' => ∀ i, Given t b s.graph i → Given t b s'.graph i)
    (P := fun i s' => i < s.graph.size → Given t b s'.graph i) (fun _ _ => id)
    (fun _ _ _ h h' i hi => h' i (h i hi)) (fun i _ _ h hi hlt => h i (hi hlt)) ?_
    ⟨rfl, fun i hi => .inl (hxs i hi), fun _ _ => rfl⟩).mono fun _ _ h => ⟨h.2.2, h.1.2.2⟩
  rintro i hi s₁ ⟨hsize, hall, hrest⟩
  unfold assignNode
  refine ends_get_bind ?_
  rcases hall i hi with hn | hgiven
  · rw [hn]
    have hnode : ∀ j, j ≠ i → (s₁.give i t b).graph.node j = s₁.graph.node j := fun j hj =>
      Graph.node_modify_of_ne _ _ hj.symm
    have hself : i < s.graph.size → Given t b (s₁.give i t b).graph i := by
      intro hlt
      have hgive := Graph.node_modify_self s₁.graph ({ · with ty := some t, guessed := b })
        (hsize ▸ hlt)
      exact ⟨congrArg Node.ty hgive, congrArg Node.guessed hgive⟩
    refine ends_set ⟨⟨(Graph.size_modify _ _ _).trans hsize, fun j hj => ?_, fun j hj => ?_⟩,
      fun j hj => ?_, hself⟩
    · by_cases hji : j = i
      · subst hji
        by_cases hlt : j < s.graph.size
        · exact .inr (hself hlt)
        · refine .inl ((congrArg Node.ty ?_).trans hn)
          exact Graph.node_modify_of_size_le _ (by rw [hsize]; exact not_lt.mp hlt) j
      · have := hall j hj
        unfold Given Graph.ty? at this ⊢
        rwa [hnode j hji]
    · rw [hnode j fun he => hj (he ▸ hi)]
      exact hrest j hj
    · have hji : j ≠ i := by
        rintro rfl
        rw [Given, hn] at hj
        cases hj.1
      unfold Given Graph.ty?
      rw [hnode j hji]
      exact hj
  · rw [hgiven.1]
    dsimp only
    rw [if_pos rfl]
    exact ends_pure ⟨⟨hsize, hall, hrest⟩, fun _ => id, fun _ => hgiven⟩

theorem lt_size_of_mem_occurrences {g : Graph} {i j : Id}
    (hj : j ∈ (Scopes.resolve g).occurrences i) (hne : j ≠ i) : j < g.size ∧ i < g.size := by
  have ident_lt : ∀ {i : Id} {k : Id × String}, g.key? i = some k → i < g.size := by
    rintro i ⟨scope, name⟩ hk
    obtain ⟨-, hname, -⟩ := Graph.key?_eq_some.mp hk
    exact Graph.lt_size_of_kind (by rw [Graph.identName?_eq_some.mp hname]; nofun)
  rcases Scopes.mem_occurrences_iff.mp hj with rfl | ⟨-, -, k, hi, hj⟩
  · exact absurd rfl hne
  · exact ⟨ident_lt hj, ident_lt hi⟩

/-- Giving a type to a binding gives it to all of its nodes or to none. -/
theorem leaves_assign_uniform {g : Graph} {calls : CallTable} {s : State}
    (hsize : s.graph.size = g.size) (hs : Uniform (.of g calls) s.graph) (i : Id) (t : Ty)
    (b : Bool) : Leaves (assign (.of g calls) i t b) s (Uniform (.of g calls)) := by
  have htypes : ∀ j ∈ (Scopes.resolve g).occurrences i, s.graph.ty? j = s.graph.ty? i :=
    fun j hj => (hs i j hj).1
  unfold assign
  cases hi : s.graph.ty? i with
  | some found =>
    -- all nodes of the binding have this type already, and nothing is changed
    have hsame : Leaves (((Context.of g calls).scopes.occurrences i).forM (assignNode t b)) s
        (· = s.graph) := by
      refine leaves_forM (fun j hj s' hs' => ?_) rfl
      unfold assignNode
      refine leaves_get_bind ?_
      rw [hs', htypes j hj, hi]
      dsimp only
      split_ifs
      · exact leaves_pure hs'
      · exact leaves_throw hs'
    unfold Leaves at hsame ⊢
    rwa [hsame]
  | none =>
    have hnone : ∀ j ∈ (Context.of g calls).scopes.occurrences i, s.graph.ty? j = none :=
      fun j hj => (htypes j hj).trans hi
    refine ((ends_forM_assignNode hnone).mono ?_).leaves
    rintro _ s' ⟨hgiven, hrest⟩ k j hj
    by_cases hjk : j = k
    · subst hjk
      exact ⟨rfl, rfl⟩
    obtain ⟨hjlt, hklt⟩ := lt_size_of_mem_occurrences hj hjk
    by_cases hki : k ∈ (Scopes.resolve g).occurrences i
    · have hk := hgiven k hki (hsize ▸ hklt)
      have hj := hgiven j (Scopes.mem_occurrences_trans hki hj) (hsize ▸ hjlt)
      exact ⟨hj.1.trans hk.1.symm, hj.2.trans hk.2.symm⟩
    · have hji : j ∉ (Scopes.resolve g).occurrences i := fun hji =>
        hki (Scopes.mem_occurrences_trans hji (Scopes.mem_occurrences_symm hj))
      unfold Graph.ty?
      rw [hrest k hki, hrest j hji]
      exact hs k j hj

theorem invariant_uniform (g : Graph) (calls : CallTable) : Invariant (.of g calls) fun x =>
    Graph.Changed (· = ·) g x ∧ Uniform (.of g calls) x where
  assign i t b s hs :=
    ⟨(invariant_attached g _).assign i t b s hs.1, leaves_assign_uniform hs.1.size hs.2 i t b⟩
  observe i k s hs := by
    refine ⟨(invariant_attached g (.of g calls)).observe i k s hs.1, fun l j hj => ?_⟩
    have hguessed : ∀ m, ((s.observe i k).graph.node m).guessed = (s.graph.node m).guessed := by
      intro m
      refine Graph.node_modify_congr s.graph _ Node.guessed ?_ i m
      exact fun _ => rfl
    rw [State.ty?_observe, State.ty?_observe, hguessed, hguessed]
    exact hs.2 l j hj

end Infer

open Infer

/-- **Inference gives types to whole bindings**, also where it fails. -/
theorem uniform_infer {g : Graph} {calls : CallTable} (h : Uniform (.of g calls) g) :
    Uniform (.of g calls) (infer g calls).graph :=
  ((invariant_uniform g calls).infer ⟨.refl (fun _ => rfl) g, h⟩).2

end ShaderScript
