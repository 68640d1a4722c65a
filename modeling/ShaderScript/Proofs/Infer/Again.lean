import ShaderScript.Proofs.Infer.Budget
import ShaderScript.Proofs.Scope.Renaming

/-!
# Running inference again

When inference ends well, nothing is pending, all evidence is in and no rule of last resort applies.
A program in that condition leaves inference nothing to do.

* `Graph.Changed.scopes_eq`, `Graph.Changed.evidence_eq`, `Graph.Changed.fallback?_eq`: facts make no
  difference to what inference looks at.
* `AtRest`: what a successful inference leaves behind, with **`ends_solve_atRest`**, and
  `exists_ty_of_needsType`: a type for every identifier that needs one.
* `Idle`: a computation that does nothing, with one lemma for each operation.
* **`infer_idempotent`**: running inference again changes nothing.
-/

namespace ShaderScript

open Infer Solver

/-! ## What facts do not matter for -/

namespace Graph.Changed

variable {g g' : Graph} (h : Changed (· = ·) g g')

include h

theorem kind_eq : g'.kind = g.kind := funext fun i => (h.kind i).symm

theorem parent?_eq : g'.parent? = g.parent? := funext h.parent

theorem scopes_eq : Scopes.resolve g' = Scopes.resolve g := by
  have hdeclares : g'.declares = g.declares := by
    funext name scope
    unfold declares declaresVar identName?
    rw [h.kind_eq]
  have hscope : g'.declaringScope = g.declaringScope := by
    funext i name
    unfold declaringScope
    rw [h.ancestors_eq, hdeclares, h.root]
  have hadd : Scopes.add g' = Scopes.add g := by
    funext bs i
    unfold Scopes.add identName?
    rw [h.kind_eq, h.renamed_of_eq.isPropertyName_eq, hscope]
  unfold Scopes.resolve
  rw [h.renamed_of_eq.live_eq, hadd]

variable (calls : CallTable)

theorem evidence_eq : (Context.of g' calls).evidence = (Context.of g calls).evidence := by
  unfold Context.evidence Context.arrayEvidence Context.callEvidence Context.indexEvidence
    literalIndex?
  simp only [Context.of_graph, Context.of_order, Context.of_calls, h.kind_eq,
    h.renamed_of_eq.live_eq]

theorem fallback?_eq : (Context.of g' calls).fallback? = (Context.of g calls).fallback? := by
  funext x
  unfold Context.fallback? Context.widening? Context.hinting? Context.guessing? Context.topIndex?
    Context.untyped
  have hneeds : (Context.of g' calls).needsType = (Context.of g calls).needsType := by
    funext i
    unfold Context.needsType Context.isCallee isOccurrence identName?
    simp only [Context.of_graph, h.kind_eq, h.parent?_eq, h.renamed_of_eq.isPropertyName_eq]
  simp only [Context.of_order, Context.of_scopes, h.renamed_of_eq.live_eq, h.scopes_eq, hneeds]

end Graph.Changed

namespace Infer

/-! ## Coming to rest -/

/-- What a successful inference leaves behind. -/
structure AtRest (c : Context) (s : State) : Prop where
  pending : s.pending = []
  absorbed : ∀ e ∈ c.evidence, Absorbed c s e
  fallback : c.fallback? s.graph = none

section Resting

variable {k : Graph} (hk : k.InRange) {calls : CallTable} {s : State}

include hk

theorem ends_seed_absorbed :
    Ends (seed (.of k calls)) { graph := k } (fun _ s => (Attached k s ∧ s.work ≤ k.size) ∧
      Gathers { graph := k } s ∧
      ∀ e ∈ (Context.of k calls).evidence, Absorbed (.of k calls) s e) (fun _ => True) := by
  have start : Attached k { graph := k } ∧ State.work { graph := k } ≤ k.size :=
    ⟨.refl (fun _ => rfl) k, (Nat.zero_add _).trans_le State.untyped_le_size⟩
  unfold seed
  refine ends_forM (I := fun s => Attached k s ∧ s.work ≤ k.size) (R := Gathers)
    (P := fun e s => Absorbed (.of k calls) s e) (fun s => (Keeps.refl s).gathers)
    (fun _ _ _ => Gathers.trans) (fun _ _ _ => Absorbed.gathers) ?_ start
  rintro e he s ⟨hs, hwork⟩
  refine (Onward.take hk hs he).mono ?_
  rintro _ s' ⟨⟨hs', hwork'⟩, hgather, habs⟩
  exact ⟨⟨hs', hwork'.trans_le hwork⟩, hgather, habs⟩

/-- Draining leaves nothing pending: each round takes one node from what is left to do. -/
theorem ends_drainUpTo_nil {n : Nat} (hs : Attached k s) (hwork : s.work ≤ n) :
    Ends (drainUpTo (.of k calls) n) s
      (fun _ s' => Attached k s' ∧ Keeps s s' ∧ s'.pending = []) (fun _ => True) := by
  induction n generalizing s with
  | zero =>
    have hp : s.pending = [] := by
      unfold State.work at hwork
      exact List.eq_nil_of_length_eq_zero (by omega)
    exact ends_pure ⟨hs, .refl s, hp⟩
  | succ n ih =>
    unfold drainUpTo
    apply ends_get_bind
    cases hp : s.pending with
    | nil => exact ends_pure ⟨hs, .refl s, hp⟩
    | cons i rest =>
      let s₀ : State := { s with pending := rest }
      have hkeep₀ : Keeps s s₀ := ⟨rfl, id, fun _ => rfl, fun _ => rfl⟩
      have hwork₀ : s₀.work + 1 = s.work := by
        unfold State.work
        rw [hp, List.length_cons, Nat.add_right_comm]
        rfl
      refine (ends_set (Q := fun _ s' => s' = s₀) rfl).bind ?_
      rintro _ _ rfl
      refine (Onward.links (s := s₀) hk hs i).bind ?_
      rintro _ s₁ ⟨hs₁, hgrow⟩
      refine (ih hs₁ (by rw [hgrow.work]; omega)).mono ?_
      rintro _ s₂ ⟨hs₂, hkeep, hnil⟩
      exact ⟨hs₂, hkeep₀.trans (hgrow.toKeeps.trans hkeep), hnil⟩

theorem ends_settle_nil {n : Nat} (hs : Attached k s) (hwork : s.work ≤ k.size)
    (hn : s.untyped ≤ n) :
    Ends (settle (.of k calls) n) s (fun _ s' => Attached k s' ∧ Keeps s s' ∧ s'.pending = [] ∧
      (Context.of k calls).fallback? s'.graph = none) (fun _ => True) := by
  induction n generalizing s with
  | zero =>
    refine (ends_drainUpTo_nil hk hs hwork).mono ?_
    rintro _ s' ⟨hs', hkeep, hnil⟩
    have hle := hkeep.untyped_le
    refine ⟨hs', hkeep, hnil, fallback?_eq_none (fun i hi => ?_) (by omega)⟩
    exact hs'.size ▸ hk.lt_size hi
  | succ n ih =>
    unfold settle
    refine (ends_drainUpTo_nil hk hs hwork).bind ?_
    rintro _ s₁ ⟨hs₁, hkeep₁, hnil⟩
    apply ends_get_bind
    cases hf : (Context.of k calls).fallback? s₁.graph with
    | none => exact ends_pure ⟨hs₁, hkeep₁, hnil, hf⟩
    | some f =>
      refine (Onward.apply hk hs₁ hf).bind ?_
      rintro _ s₂ ⟨⟨hs₂, hgrow⟩, hlt⟩
      have hle := hkeep₁.untyped_le
      have hwork₁ : s₁.work ≤ k.size := by
        unfold State.work
        rw [hnil, List.length_nil, Nat.zero_add, ← hs₁.size]
        exact State.untyped_le_size
      refine (ih hs₂ (hgrow.work ▸ hwork₁) (by omega)).mono ?_
      rintro _ s₃ ⟨hs₃, hkeep₃, hrest⟩
      exact ⟨hs₃, hkeep₁.trans (hgrow.toKeeps.trans hkeep₃), hrest⟩

variable (calls) in
/-- **Inference that ends well comes to rest.** -/
theorem ends_solve_atRest : Ends (solve (.of k calls)) { graph := k }
    (fun _ s => Attached k s ∧ AtRest (.of k calls) s) (fun _ => True) := by
  unfold solve
  refine (ends_seed_absorbed hk).bind ?_
  rintro _ s ⟨⟨hs, hwork⟩, -, habs⟩
  refine (ends_settle_nil hk hs hwork (State.untyped_le_size.trans hs.size.le)).mono ?_
  rintro _ s' ⟨hs', hkeep, hnil, hf⟩
  exact ⟨hs', hnil, fun e he => (habs e he).gathers hkeep.gathers, hf⟩

variable (calls) in
theorem exists_atRest (hok : (infer k calls).failure = none) :
    ∃ s, (infer k calls).graph = s.graph ∧ Attached k s ∧ AtRest (.of k calls) s := by
  have hends := ends_solve_atRest hk calls
  unfold infer at hok ⊢
  unfold Ends at hends
  rcases hr : (solve (.of k calls)).run.run { graph := k } with ⟨e | _, s⟩
  · rw [hr] at hok
    cases hok
  · rw [hr] at hends
    exact ⟨s, rfl, hends⟩

/-- **A successful inference gives a type to every identifier that needs one.** -/
theorem exists_ty_of_needsType {i : Id} (hok : (infer k calls).failure = none) (hi : i ∈ k.live)
    (hneeds : (Context.of k calls).needsType i = true) :
    ∃ t, (infer k calls).graph.ty? i = some t := by
  obtain ⟨s, hgraph, -, hrest⟩ := exists_atRest hk calls hok
  rw [hgraph, ← Option.isSome_iff_exists]
  by_contra hnone
  rw [Bool.not_eq_true, Option.isSome_eq_false_iff, Option.isNone_iff_eq_none] at hnone
  have hguess : (Context.of k calls).guessing? s.graph = none := by
    have hall := hrest.fallback
    unfold Context.fallback? at hall
    exact (Option.or_eq_none_iff.mp hall).2
  unfold Context.guessing? at hguess
  rw [Option.map_eq_none_iff, List.find?_eq_none] at hguess
  exact hguess i (Context.mem_untyped.mpr ⟨hi, hnone⟩) hneeds

end Resting

/-! ## Nothing left to do -/

/-- The computation does nothing. -/
def Idle (m : Solver Unit) (s : State) : Prop := Ends m s (fun _ s' => s' = s) (fun _ => False)

section Idling

variable {c : Context} {s : State}

theorem idle_forM {α : Type} {xs : List α} {f : α → Solver Unit} (h : ∀ x ∈ xs, Idle (f x) s) :
    Idle (xs.forM f) s := by
  refine (ends_forM (I := (· = s)) (R := fun _ _ => True) (P := fun _ _ => True)
    (fun _ => trivial) (fun _ _ _ _ _ => trivial) (fun _ _ _ _ _ => trivial) ?_ rfl).mono
      fun _ _ hs => hs.1
  rintro x hx _ rfl
  exact (h x hx).mono fun _ _ hs => ⟨hs, trivial, trivial⟩

theorem idle_take {e : Evidence} (he : Absorbed c s e) : Idle (e.take c) s := by
  cases e with
  | hasType i t =>
    refine idle_forM fun j hj => ?_
    unfold assignNode
    refine ends_get_bind ?_
    rw [he j hj]
    dsimp only
    rw [if_pos rfl]
    exact ends_pure rfl
  | indexedAt i n =>
    obtain ⟨m, hle, hm⟩ := he
    -- The position noted before is at least as large, so noting this one leaves it.
    have hgraph : (s.observe i n).graph = s.graph := by
      refine Graph.modify_eq_self ?_
      rw [hm, Option.getD_some, max_eq_left hle, ← hm]
    exact ends_modify (congrArg (fun graph => ({ s with graph } : State)) hgraph)
  | notAVector | wrongArity => exact he.elim

theorem idle_drain (hp : s.pending = []) : Idle (drain c) s := by
  unfold drain
  cases c.graph.size with
  | zero => exact ends_pure rfl
  | succ n =>
    unfold drainUpTo
    refine ends_get_bind ?_
    rw [hp]
    exact ends_pure rfl

theorem idle_settle (h : AtRest c s) (n : Nat) : Idle (settle c n) s := by
  cases n with
  | zero => exact idle_drain h.pending
  | succ n =>
    unfold settle
    refine (idle_drain h.pending).bind ?_
    rintro _ _ rfl
    refine ends_get_bind ?_
    rw [h.fallback]
    exact ends_pure rfl

theorem idle_solve (h : AtRest c s) : Idle (solve c) s := by
  unfold solve seed
  refine (idle_forM fun e he => idle_take (h.absorbed e he)).bind ?_
  rintro _ _ rfl
  exact idle_settle h c.graph.size

end Idling

/-- What inference leaves behind is at rest also where it is the program to start from. -/
theorem AtRest.again {g : Graph} {calls : CallTable} {s : State} (hs : Attached g s)
    (h : AtRest (.of g calls) s) : AtRest (.of s.graph calls) { graph := s.graph } where
  pending := rfl
  absorbed e he := by
    rw [hs.evidence_eq] at he
    have habs := h.absorbed e he
    cases e with
    | hasType i t =>
      intro j hj
      rw [Context.of_scopes, hs.scopes_eq] at hj
      exact habs j hj
    | indexedAt | notAVector | wrongArity => exact habs
  fallback := by
    rw [hs.fallback?_eq]
    exact h.fallback

end Infer

/-- **Running inference again changes nothing.** Where inference ends well, a second run on the
program it leaves ends well too and leaves the same program: every type, every guess, every noted
position and every other part of every node. -/
theorem infer_idempotent {g : Graph} (hg : g.InRange) (calls : CallTable)
    (hok : (infer g calls).failure = none) :
    infer (infer g calls).graph calls =
      { graph := (infer g calls).graph, notes := [], failure := none } := by
  have hrest := ends_solve_atRest hg calls
  unfold infer at hok ⊢
  unfold Ends at hrest
  rcases hr : (solve (.of g calls)).run.run { graph := g } with ⟨e | _, s⟩
  · rw [hr] at hok
    cases hok
  · rw [hr] at hrest
    obtain ⟨hs, hrest⟩ := hrest
    have hidle := idle_solve (hrest.again hs)
    unfold Idle Ends at hidle
    dsimp only
    rcases hr' : (solve (.of s.graph calls)).run.run { graph := s.graph } with ⟨e | _, s'⟩
    · rw [hr'] at hidle
      exact hidle.elim
    · rw [hr'] at hidle
      obtain rfl : s' = _ := hidle
      rfl

/-- The program of `indexedInCallee` with a type attached to its variable and a hint beside it. -/
def partlyTyped : Graph :=
  (indexedInCallee.setTy 8 (some .vec3)).modify 5 ({ · with hint := some .vec4 })

/-- A second run has nothing to add to what a first one has found. -/
theorem infer_idempotent_partlyTyped :
    partlyTyped.InRange ∧
    (infer partlyTyped (CallTable.resolve partlyTyped)).failure = none ∧
    (infer partlyTyped (CallTable.resolve partlyTyped)).graph ≠ partlyTyped ∧
    (infer (infer partlyTyped (CallTable.resolve partlyTyped)).graph
      (CallTable.resolve partlyTyped)).graph =
      (infer partlyTyped (CallTable.resolve partlyTyped)).graph := by
  have hg : partlyTyped.InRange := by decide +kernel
  have hok : (infer partlyTyped (CallTable.resolve partlyTyped)).failure = none := by
    decide +kernel
  have hne : (infer partlyTyped (CallTable.resolve partlyTyped)).graph ≠ partlyTyped := by
    decide +kernel
  have hagain := infer_idempotent hg (CallTable.resolve partlyTyped) hok
  exact ⟨hg, hok, hne, by rw [hagain]⟩

end ShaderScript
