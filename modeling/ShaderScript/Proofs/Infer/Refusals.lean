import ShaderScript.Proofs.Infer.Shape

/-!
# Inference and refused calls

Inference looks up which function a call refers to. The errors that are held back on calls are not
its business: it does not read them, and the errors it fails with are of other kinds.

* `Error.isRefusal`: the errors that are held back on calls.
* `Solver.Raises`: which errors a computation fails with, with one rule for each way to build
  computations.
* **`infer_failure_isRefusal`**: inference raises no error of a refused call.
* **`infer_errors`**: inference does not depend on the errors held back.
-/

namespace ShaderScript

/-- Whether an error is one of those that are held back on calls. -/
def Error.isRefusal : Error → Bool
  | notWhitelisted _ | rejectedCall _ _ => true
  | _ => false

namespace Infer

/-! ## The errors of inference -/

/-- Started anywhere, the computation fails with no error but those with `E`. -/
def Solver.Raises {α : Type} (m : Solver α) (E : Error → Prop) : Prop :=
  ∀ s e, (m.run.run s).1 = .error e → E e

namespace Solver

variable {α β : Type} {E : Error → Prop}

theorem raises_pure (a : α) : Raises (pure a) E := by
  rintro _ _ ⟨⟩

theorem raises_throw {e : Error} (h : E e) : Raises (throw e : Solver α) E := by
  rintro s e' he
  cases he
  exact h

theorem raises_get : Raises (get : Solver State) E := by
  rintro _ _ ⟨⟩

theorem raises_set (s : State) : Raises (set s : Solver PUnit) E := by
  rintro _ _ ⟨⟩

theorem raises_modify (f : State → State) : Raises (modify f : Solver PUnit) E := by
  rintro _ _ ⟨⟩

theorem Raises.bind {m : Solver α} {f : α → Solver β} (hm : Raises m E)
    (hf : ∀ a, Raises (f a) E) : Raises (m >>= f) E := by
  intro s e he
  rw [run_run_bind] at he
  rcases hr : m.run.run s with ⟨e' | a, s'⟩
  · rw [hr] at he
    cases he
    exact hm s e (by rw [hr])
  · rw [hr] at he
    exact hf a s' e he

theorem raises_forM {xs : List α} {f : α → Solver PUnit} (hf : ∀ x ∈ xs, Raises (f x) E) :
    Raises (xs.forM f) E := by
  induction xs with
  | nil => exact raises_pure _
  | cons x xs ih =>
    rw [List.forM_eq_forM, List.forM_cons]
    exact (hf x List.mem_cons_self).bind fun _ => ih fun y hy => hf y (List.mem_cons_of_mem _ hy)

end Solver

open Solver

variable (c : Context)

theorem raises_assign (i : Id) (t : Ty) (b : Bool) :
    Raises (assign c i t b) fun e => e.isRefusal = false := by
  refine raises_forM fun j _ => raises_get.bind fun s => ?_
  cases s.graph.ty? j with
  | none => exact raises_set _
  | some found =>
    dsimp only
    split_ifs
    · exact raises_pure _
    · exact raises_throw rfl

theorem raises_share (p : Id × Id) : Raises (share c p) fun e => e.isRefusal = false := by
  refine raises_get.bind fun s => ?_
  dsimp only
  cases s.graph.ty? p.1 with
  | some t =>
    cases s.graph.ty? p.2 with
    | some u =>
      dsimp only
      split_ifs
      · exact raises_pure _
      · exact raises_throw rfl
    | none => exact raises_assign c _ _ _
  | none =>
    cases s.graph.ty? p.2 with
    | some u => exact raises_assign c _ _ _
    | none => exact raises_pure _

theorem raises_take (e : Evidence) : Raises (e.take c) fun e => e.isRefusal = false := by
  cases e with
  | hasType i t => exact raises_assign c _ _ _
  | indexedAt i k => exact raises_modify _
  | notAVector i length => exact raises_get.bind fun _ => raises_throw rfl
  | wrongArity e n => exact raises_throw rfl

theorem raises_drainUpTo (n : Nat) : Raises (drainUpTo c n) fun e => e.isRefusal = false := by
  induction n with
  | zero => exact raises_pure _
  | succ n ih =>
    refine raises_get.bind fun s => ?_
    cases s.pending with
    | nil => exact raises_pure _
    | cons i rest =>
      refine (raises_set _).bind fun _ => ?_
      exact (raises_forM fun p _ => raises_share c p).bind fun _ => ih

theorem raises_apply (f : Fallback) : Raises (f.apply c) fun e => e.isRefusal = false := by
  have note_assign : ∀ (n : Note) (i : Id) (t : Ty) (b : Bool),
      Raises (do note n; assign c i t b) fun e => e.isRefusal = false := fun n i t b =>
    (raises_modify _).bind fun _ => raises_assign c i t b
  cases f with
  | widen i k =>
    refine raises_get.bind fun s => ?_
    cases Ty.forIndex? k with
    | none => exact raises_throw rfl
    | some t => exact note_assign _ _ _ _
  | hint i t => exact raises_get.bind fun _ => note_assign _ _ _ _
  | guess i t => exact raises_get.bind fun _ => note_assign _ _ _ _

theorem raises_settle (n : Nat) : Raises (settle c n) fun e => e.isRefusal = false := by
  induction n with
  | zero => exact raises_drainUpTo c _
  | succ n ih =>
    refine (raises_drainUpTo c _).bind fun _ => raises_get.bind fun s => ?_
    cases c.fallback? s.graph with
    | none => exact raises_pure _
    | some f => exact (raises_apply c f).bind fun _ => ih

theorem raises_solve : Raises (solve c) fun e => e.isRefusal = false :=
  (raises_forM fun e _ => raises_take c e).bind fun _ => raises_settle c _

/-! ## The errors held back -/

/-- The context with other errors held back. -/
def Context.withErrors (errors : List (Id × Error)) : Context :=
  { c with calls := { c.calls with errors } }

variable (errors : List (Id × Error))

theorem drainUpTo_withErrors (n : Nat) : drainUpTo (c.withErrors errors) n = drainUpTo c n := by
  induction n with
  | zero => rfl
  | succ n ih =>
    unfold drainUpTo
    rw [ih]
    rfl

theorem settle_withErrors (n : Nat) : settle (c.withErrors errors) n = settle c n := by
  have hdrain : drain (c.withErrors errors) = drain c := drainUpTo_withErrors c errors _
  induction n with
  | zero => exact hdrain
  | succ n ih =>
    unfold settle
    rw [ih, hdrain]
    rfl

theorem solve_withErrors : solve (c.withErrors errors) = solve c := by
  unfold solve
  have hsettle := settle_withErrors c errors c.graph.size
  change (do seed (c.withErrors errors); settle (c.withErrors errors) c.graph.size) = _
  rw [hsettle]
  rfl

end Infer

open Infer

/-- **Inference raises no error of a refused call.** -/
theorem infer_failure_isRefusal {g : Graph} {calls : CallTable} {e : Error}
    (he : (infer g calls).failure = some e) : e.isRefusal = false := by
  have hraises := raises_solve (.of g calls) { graph := g }
  unfold infer at he
  rcases hr : (solve (.of g calls)).run.run { graph := g } with ⟨e' | _, s⟩
  · rw [hr] at he hraises
    obtain rfl : e' = e := Option.some.inj he
    exact hraises _ rfl
  · rw [hr] at he
    cases he

/-- **Inference does not depend on the errors held back.** -/
theorem infer_errors (g : Graph) (calls : CallTable) (errors : List (Id × Error)) :
    infer g { calls with errors } = infer g calls := by
  unfold infer
  rw [show Context.of g { calls with errors } = (Context.of g calls).withErrors errors from rfl,
    solve_withErrors]

end ShaderScript
