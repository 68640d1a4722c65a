import ShaderScript.Proofs.Graph.Link
import ShaderScript.Proofs.Infer.Seeding

/-!
# What inference leaves alone

Inference touches a program in two ways: it gives a type to a binding, and it notes a position at a
node. What both of them keep holds of the program that inference leaves, also where it fails. In
particular no node becomes another or moves. And inference fails at the latest on the first call of
a known function with the wrong number of arguments.

* `Solver.Leaves`: what holds however a computation ends, with one rule for each way to build
  computations.
* `Invariant`: what giving a type and noting a position keep.
* **`Invariant.infer`**: inference keeps it.
* `Attached`: the program is the one before, up to facts.
* **`changed_infer`**: attaching facts is all that inference does.
* `infer_attached`: where it succeeds, every call of a known function has the right number of
  arguments.
-/

namespace ShaderScript

namespace Infer

/-! ## Computations -/

/-- However the computation ends, the program it leaves has `J`. -/
def Solver.Leaves {α : Type} (m : Solver α) (s : State) (J : Graph → Prop) : Prop :=
  J (m.run.run s).2.graph

namespace Solver

variable {α β : Type} {s : State} {J : Graph → Prop}

theorem leaves_pure {a : α} (h : J s.graph) : Leaves (pure a) s J := h

theorem leaves_throw {e : Error} (h : J s.graph) : Leaves (throw e : Solver α) s J := h

theorem leaves_get_bind {f : State → Solver α} (h : Leaves (f s) s J) :
    Leaves (get >>= f) s J := h

theorem leaves_set {s' : State} (h : J s'.graph) : Leaves (set s' : Solver PUnit) s J := h

theorem leaves_modify {f : State → State} (h : J (f s).graph) :
    Leaves (modify f : Solver PUnit) s J := h

theorem Leaves.bind {m : Solver α} {f : α → Solver β} (hm : Leaves m s J)
    (hf : ∀ a s', J s'.graph → Leaves (f a) s' J) : Leaves (m >>= f) s J := by
  unfold Leaves at hm ⊢
  rw [run_run_bind]
  rcases hr : m.run.run s with ⟨e | a, s'⟩
  · rw [hr] at hm
    exact hm
  · rw [hr] at hm
    exact hf a s' hm

theorem leaves_forM {xs : List α} {f : α → Solver PUnit}
    (hstep : ∀ x ∈ xs, ∀ s, J s.graph → Leaves (f x) s J) (hs : J s.graph) :
    Leaves (xs.forM f) s J := by
  induction xs generalizing s with
  | nil =>
    rw [List.forM_eq_forM, List.forM_nil]
    exact leaves_pure hs
  | cons x xs ih =>
    rw [List.forM_eq_forM, List.forM_cons]
    refine (hstep x List.mem_cons_self s hs).bind fun _ s' hs' => ?_
    exact ih (fun y hy => hstep y (List.mem_cons_of_mem _ hy)) hs'

end Solver

open Solver

/-! ## Invariants -/

/-- Giving a type to a binding keeps `J`, whether it succeeds or not, and so does noting a
position. -/
structure Invariant (c : Context) (J : Graph → Prop) : Prop where
  assign : ∀ i t b s, J s.graph → Leaves (assign c i t b) s J
  observe : ∀ i k (s : State), J s.graph → J (s.observe i k).graph

namespace Invariant

variable {c : Context} {J : Graph → Prop} (h : Invariant c J) {s : State} (hs : J s.graph)

include h hs

theorem share (p : Id × Id) : Leaves (share c p) s J := by
  unfold Infer.share
  refine leaves_get_bind ?_
  dsimp only
  cases s.graph.ty? p.1 with
  | some t =>
    cases s.graph.ty? p.2 with
    | some u =>
      dsimp only
      split_ifs
      · exact leaves_pure hs
      · exact leaves_throw hs
    | none => exact h.assign _ _ _ s hs
  | none =>
    cases s.graph.ty? p.2 with
    | some u => exact h.assign _ _ _ s hs
    | none => exact leaves_pure hs

theorem take (e : Evidence) : Leaves (e.take c) s J := by
  cases e with
  | hasType i t => exact h.assign i t false s hs
  | indexedAt i k => exact leaves_modify (h.observe i k s hs)
  | notAVector i length => exact leaves_get_bind (leaves_throw hs)
  | wrongArity e n => exact leaves_throw hs

theorem drainUpTo (n : Nat) : Leaves (drainUpTo c n) s J := by
  induction n generalizing s with
  | zero => exact leaves_pure hs
  | succ n ih =>
    unfold Infer.drainUpTo
    refine leaves_get_bind ?_
    cases s.pending with
    | nil => exact leaves_pure hs
    | cons i rest =>
      have hrest : J ({ s with pending := rest } : State).graph := hs
      refine (leaves_set hrest).bind fun _ s₁ hs₁ => ?_
      exact (leaves_forM (fun p _ s hs => h.share hs p) hs₁).bind fun _ s₂ hs₂ => ih hs₂

theorem apply (f : Fallback) : Leaves (f.apply c) s J := by
  have note_assign : ∀ (n : Note) (i : Id) (t : Ty) (b : Bool),
      Leaves (do note n; Infer.assign c i t b) s J := by
    intro n i t b
    exact (leaves_modify (J := J) hs).bind fun _ s' hs' => h.assign i t b s' hs'
  cases f with
  | widen i k =>
    unfold Fallback.apply
    refine leaves_get_bind ?_
    cases Ty.forIndex? k with
    | none => exact leaves_throw hs
    | some t => exact note_assign ..
  | hint i t => exact leaves_get_bind (note_assign ..)
  | guess i t => exact leaves_get_bind (note_assign ..)

theorem settle (n : Nat) : Leaves (settle c n) s J := by
  induction n generalizing s with
  | zero => exact h.drainUpTo hs c.graph.size
  | succ n ih =>
    unfold Infer.settle
    refine (h.drainUpTo hs c.graph.size).bind fun _ s₁ hs₁ => ?_
    refine leaves_get_bind ?_
    cases c.fallback? s₁.graph with
    | none => exact leaves_pure hs₁
    | some f => exact (h.apply hs₁ f).bind fun _ s₂ hs₂ => ih hs₂

theorem solve : Leaves (solve c) s J := by
  unfold Infer.solve seed
  refine (leaves_forM (fun e _ s hs => h.take hs e) hs).bind fun _ s' hs' => ?_
  exact h.settle hs' c.graph.size

omit h hs in
/-- **What giving types and noting positions keep holds of what inference leaves.** -/
theorem infer {g : Graph} {calls : CallTable} (h : Invariant (.of g calls) J) (hg : J g) :
    J (infer g calls).graph := by
  have hsolve := h.solve (s := { graph := g }) hg
  unfold Leaves at hsolve
  unfold ShaderScript.infer
  rcases hr : (Infer.solve (.of g calls)).run.run { graph := g } with ⟨_ | _, s⟩ <;>
    · rw [hr] at hsolve
      exact hsolve

end Invariant

/-! ## Facts -/

/-- The program is the one before, up to facts. -/
def Attached (g : Graph) (s : State) : Prop := Graph.Changed (· = ·) g s.graph

theorem Attached.modify {g : Graph} {s : State} (h : Attached g s) {i : Id} {f : Node → Node}
    (hkind : ∀ n, (f n).kind = n.kind) (hparent : ∀ n, (f n).parent = n.parent) :
    Graph.Changed (· = ·) g (s.graph.modify i f) := by
  refine h.trans (fun hk hk' => hk.trans hk')
    ⟨rfl, Graph.size_modify _ _ _, fun j => ?_, fun j => ?_⟩
  · exact Graph.node_modify_congr s.graph f Node.parent hparent i j
  · exact (Graph.node_modify_congr s.graph f Node.kind hkind i j).symm

theorem invariant_attached (g : Graph) (c : Context) :
    Invariant c (Graph.Changed (· = ·) g) where
  assign i t b s hs := by
    refine leaves_forM (fun j _ s hs => ?_) hs
    unfold assignNode
    refine leaves_get_bind ?_
    cases s.graph.ty? j with
    | none => exact leaves_set (Attached.modify hs (fun _ => rfl) fun _ => rfl)
    | some found =>
      dsimp only
      split_ifs
      · exact leaves_pure hs
      · exact leaves_throw hs
  observe i k s hs := Attached.modify hs (fun _ => rfl) fun _ => rfl

/-! ## Arguments -/

theorem ends_solve_arity (c : Context) (s : State) : Ends (solve c) s
    (fun _ _ => ∀ e ∈ c.evidence, ∀ k n, e ≠ .wrongArity k n) (fun _ => True) := by
  have hseed : Ends (seed c) s
      (fun _ _ => ∀ e ∈ c.evidence, ∀ k n, e ≠ .wrongArity k n) (fun _ => True) := by
    refine (ends_forM (I := fun _ => True) (R := fun _ _ => True)
      (P := fun (e : Evidence) _ => ∀ (k : Known.Entry) (n : Nat), e ≠ .wrongArity k n)
      (fun _ => trivial) (fun _ _ _ _ _ => trivial) (fun _ _ _ _ hP => hP)
      (fun e _ s _ => ?_) trivial).mono fun _ _ hs => hs.2.2
    cases e with
    | hasType | indexedAt | notAVector =>
      exact ends_intro (fun _ _ => ⟨trivial, trivial, nofun⟩) fun _ => trivial
    | wrongArity k n => exact ends_throw trivial
  exact hseed.bind fun _ _ harity => ends_intro (fun _ _ => harity) fun _ => trivial

end Infer

open Infer

/-- **Inference attaches facts and moves nothing**, also where it fails. -/
theorem changed_infer (g : Graph) (calls : CallTable) :
    Graph.Changed (· = ·) g (infer g calls).graph :=
  (invariant_attached g (.of g calls)).infer (.refl (fun _ => rfl) g)

/-- **A successful inference attaches facts and moves nothing**, and every call of a known function
has the right number of arguments. -/
theorem infer_attached {g : Graph} {calls : CallTable} (hok : (infer g calls).failure = none) :
    Graph.Changed (· = ·) g (infer g calls).graph ∧
    ∀ i ∈ g.live, ∀ e callee args, calls.known? i = some e → g.kind i = .call callee args →
      args.length = e.arity := by
  refine ⟨changed_infer g calls, fun i hi e callee args hknown hk => ?_⟩
  have hends := ends_solve_arity (.of g calls) { graph := g }
  unfold infer at hok
  unfold Solver.Ends at hends
  rcases hr : (solve (.of g calls)).run.run { graph := g } with ⟨err | a, s⟩
  · rw [hr] at hok
    cases hok
  · rw [hr] at hends
    by_contra hne
    refine hends (.wrongArity e args.length) ?_ e args.length rfl
    exact Context.mem_evidence.mpr ⟨i, hi, .inr (.inl (Context.mem_callEvidence.mpr
      ⟨e, callee, args, hknown, hk, .inr (.inr ⟨hne, rfl⟩)⟩))⟩

end ShaderScript
