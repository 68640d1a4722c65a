import ShaderScript.Proofs.Infer.Again

/-!
# Inference step by step

The loops of inference as a machine. Its store is a list of tasks, of which the first is done next,
and no bound on the number of steps is built into it.

* `Task`: what can be left to do, with `Task.step`: what doing it changes and leaves to do.
* `Run`: a run of the machine with the steps it takes, with **`Run.unique`**: from one state there
  is no second one.
* `Does`: tasks that do what a computation does, with one rule for each way to build computations
  and one lemma for each operation.
* **`does_solve`**: the machine does what inference does, in as many rounds as there are nodes
  without type.
-/

namespace ShaderScript.Infer

open Solver

/-! ## The machine -/

/-- Something that is left to do. -/
inductive Task where
  /-- Take in a piece of evidence. -/
  | take (e : Evidence)
  /-- Give a type to one node. -/
  | give (t : Ty) (guessed : Bool) (i : Id)
  /-- Make two nodes agree. -/
  | share (p : Id × Id)
  /-- Look at the pairs of pending nodes until none is pending. -/
  | drain
  /-- Find the rule of last resort that applies next, and go on from there. -/
  | resort
  /-- Apply a rule of last resort. -/
  | apply (f : Fallback)

namespace Task

variable (c : Context)

/-- A type for a whole binding is a type for one node after another. -/
def assign (i : Id) (t : Ty) (guessed : Bool) : List Task :=
  (c.scopes.occurrences i).map (give t guessed)

/-- What is left to do at the start. -/
def start : List Task := c.evidence.map take ++ [drain, resort]

/-- What a task leaves to do and the state it leaves, or the error it ends with. -/
@[simp] def step (s : State) : Task → Except Error (List Task × State)
  | take (.hasType i t) => .ok (assign c i t false, s)
  | take (.indexedAt i k) => .ok ([], s.observe i k)
  | take (.notAVector i length) => .error (.invalidVectorLiteral (s.graph.render i) length)
  | take (.wrongArity e found) => .error (.arityMismatch e.name e.arity found)
  | give t guessed i =>
    match s.graph.ty? i with
    | some found => if found = t then .ok ([], s) else .error (contradiction s.graph i found t)
    | none => .ok ([], s.give i t guessed)
  | share p =>
    match s.graph.ty? p.1, s.graph.ty? p.2 with
    | some t, some u => if t = u then .ok ([], s) else .error (contradiction s.graph p.2 u t)
    | some t, none => .ok (assign c p.2 t (s.graph.node p.1).guessed, s)
    | none, some u => .ok (assign c p.1 u (s.graph.node p.2).guessed, s)
    | none, none => .ok ([], s)
  | drain =>
    match s.pending with
    | [] => .ok ([], s)
    | i :: pending => .ok ((c.links i).map share ++ [drain], { s with pending })
  | resort =>
    match c.fallback? s.graph with
    | none => .ok ([], s)
    | some f => .ok ([apply f, drain, resort], s)
  | apply (.widen i k) =>
    let text := s.graph.render i
    match Ty.forIndex? k with
    | none => .error (.indexOutOfRange text k)
    | some t => .ok (assign c i t false, { s with notes := s.notes.push (.widened text k t) })
  | apply (.hint i t) =>
    .ok (assign c i t false, { s with notes := s.notes.push (.hinted (s.graph.render i) t) })
  | apply (.guess i t) =>
    .ok (assign c i t true, { s with notes := s.notes.push (.guessed (s.graph.render i) t) })

/-- Whether the task starts a round of the outer loop. -/
def isApply : Task → Bool
  | apply _ => true
  | _ => false

end Task

/-- A step of a run. -/
structure Move where
  task : Task
  before : State
  after : State

/-- A run of the machine: the steps it takes, and how it ends. -/
inductive Run (c : Context) :
    List Task → State → List Move → Except Error Unit × State → Prop
  | nil {s} : Run c [] s [] (.ok (), s)
  | fail {t ts s e} : t.step c s = .error e → Run c (t :: ts) s [⟨t, s, s⟩] (.error e, s)
  | cons {t ts s more s' moves out} : t.step c s = .ok (more, s') →
      Run c (more ++ ts) s' moves out → Run c (t :: ts) s (⟨t, s, s'⟩ :: moves) out

namespace Run

variable {c : Context} {ts ts' : List Task} {s s' : State} {moves moves' : List Move}
  {out out' : Except Error Unit × State}

/-- **The machine has no second run.** -/
theorem unique (h : Run c ts s moves out) (h' : Run c ts s moves' out') :
    moves' = moves ∧ out' = out := by
  induction h generalizing moves' out' with
  | nil =>
    cases h'
    exact ⟨rfl, rfl⟩
  | fail he =>
    cases h' with
    | fail he' =>
      rw [he] at he'
      obtain rfl := Except.error.inj he'
      exact ⟨rfl, rfl⟩
    | cons hs' _ =>
      rw [he] at hs'
      cases hs'
  | cons hs _ ih =>
    cases h' with
    | fail he' =>
      rw [hs] at he'
      cases he'
    | cons hs' hrest =>
      rw [hs] at hs'
      obtain ⟨rfl, rfl⟩ := Prod.mk.inj (Except.ok.inj hs')
      obtain ⟨rfl, rfl⟩ := ih hrest
      exact ⟨rfl, rfl⟩

theorem append (h : Run c ts s moves (.ok (), s')) (h' : Run c ts' s' moves' out) :
    Run c (ts ++ ts') s (moves ++ moves') out := by
  generalize hout : (Except.ok (), s') = mid at h
  induction h with
  | nil =>
    obtain ⟨-, rfl⟩ := Prod.mk.inj hout
    exact h'
  | fail => cases hout
  | cons hs _ ih => exact .cons hs (List.append_assoc _ _ _ ▸ ih hout)

theorem append_fail {e : Error} (h : Run c ts s moves (.error e, s')) :
    Run c (ts ++ ts') s moves (.error e, s') := by
  generalize hout : (Except.error e, s') = mid at h
  induction h with
  | nil => cases hout
  | fail he =>
    obtain ⟨he', rfl⟩ := Prod.mk.inj hout
    exact .fail he
  | cons hs _ ih => exact .cons hs (List.append_assoc _ _ _ ▸ ih hout)

end Run

/-! ## Tasks and computations -/

/-- The tasks do what the computation does, in at most `n` rounds of the outer loop. -/
def Does (c : Context) (n : Nat) (ts : List Task) (m : Solver Unit) (s : State) : Prop :=
  ∃ moves, Run c ts s moves (m.run.run s) ∧ moves.countP (·.task.isApply) ≤ n

section Rules

variable {c : Context} {a b : Nat} {t : Task} {ts ts' : List Task} {s : State} {m m' : Solver Unit}

theorem does_pure : Does c 0 [] (pure ()) s := ⟨[], .nil, le_rfl⟩

theorem Does.mono (h : Does c a ts m s) (hab : a ≤ b) : Does c b ts m s := by
  obtain ⟨moves, hrun, hle⟩ := h
  exact ⟨moves, hrun, hle.trans hab⟩

theorem Does.bind (h : Does c a ts m s)
    (h' : ∀ s', m.run.run s = (.ok (), s') → Does c b ts' m' s') :
    Does c (a + b) (ts ++ ts') (m >>= fun _ => m') s := by
  obtain ⟨moves, hrun, hle⟩ := h
  unfold Does
  rw [run_run_bind]
  rcases hr : m.run.run s with ⟨e | _, s'⟩
  · rw [hr] at hrun
    exact ⟨moves, hrun.append_fail, hle.trans (Nat.le_add_right a b)⟩
  · rw [hr] at hrun
    obtain ⟨moves', hrun', hle'⟩ := h' s' hr
    refine ⟨moves ++ moves', hrun.append hrun', ?_⟩
    rw [List.countP_append]
    exact Nat.add_le_add hle hle'

theorem does_step {more : List Task} (s' : State) (m' : Solver Unit)
    (hs : t.step c s = .ok (more, s')) (hm : m.run.run s = m'.run.run s')
    (h : Does c a more m' s') : Does c (a + t.isApply.toNat) [t] m s := by
  obtain ⟨moves, hrun, hle⟩ := h
  refine ⟨⟨t, s, s'⟩ :: moves, ?_, ?_⟩
  · rw [hm]
    exact .cons hs (by rwa [List.append_nil])
  · rw [List.countP_cons]
    cases ht : t.isApply <;> simpa [ht] using hle

theorem does_fail {e : Error} (hs : t.step c s = .error e) (hm : m.run.run s = (.error e, s)) :
    Does c t.isApply.toNat [t] m s := by
  refine ⟨[⟨t, s, s⟩], hm ▸ .fail hs, ?_⟩
  cases ht : t.isApply <;> simp [ht]

theorem does_get_bind {f : State → Solver Unit} (h : Does c a ts (f s) s) :
    Does c a ts (get >>= f) s := h

theorem does_forM {α : Type} {f : α → Solver Unit} {task : α → Task} {xs : List α}
    (h : ∀ x ∈ xs, ∀ s, Does c 0 [task x] (f x) s) (s : State) :
    Does c 0 (xs.map task) (xs.forM f) s := by
  induction xs generalizing s with
  | nil => exact does_pure
  | cons x xs ih =>
    rw [List.forM_eq_forM, List.forM_cons]
    refine (h x List.mem_cons_self s).bind (b := 0) fun s' _ => ?_
    exact ih (fun y hy => h y (List.mem_cons_of_mem _ hy)) s'

end Rules

/-! ## The operations -/

section Operations

variable (c : Context) (s : State)

theorem does_assignNode (t : Ty) (guessed : Bool) (i : Id) :
    Does c 0 [.give t guessed i] (assignNode t guessed i) s := by
  unfold assignNode
  refine does_get_bind ?_
  cases hi : s.graph.ty? i with
  | none =>
    refine does_step (s.give i t guessed) (pure ()) ?_ rfl does_pure
    simp only [Task.step, hi]
  | some found =>
    dsimp only
    split_ifs with ht
    · refine does_step s (pure ()) ?_ rfl does_pure
      simp only [Task.step, hi, if_pos ht]
    · refine does_fail (e := contradiction s.graph i found t) ?_ rfl
      simp only [Task.step, hi, if_neg ht]

theorem does_assign (i : Id) (t : Ty) (guessed : Bool) :
    Does c 0 (Task.assign c i t guessed) (assign c i t guessed) s :=
  does_forM (fun j _ s => does_assignNode c s t guessed j) s

theorem does_share (p : Id × Id) : Does c 0 [.share p] (share c p) s := by
  unfold share
  refine does_get_bind ?_
  dsimp only
  cases h₁ : s.graph.ty? p.1 with
  | some t =>
    cases h₂ : s.graph.ty? p.2 with
    | some u =>
      dsimp only
      split_ifs with htu
      · refine does_step s (pure ()) ?_ rfl does_pure
        simp only [Task.step, h₁, h₂, if_pos htu]
      · refine does_fail (e := contradiction s.graph p.2 u t) ?_ rfl
        simp only [Task.step, h₁, h₂, if_neg htu]
    | none =>
      refine does_step s _ ?_ rfl (does_assign ..)
      simp only [Task.step, h₁, h₂]
  | none =>
    cases h₂ : s.graph.ty? p.2 with
    | some u =>
      refine does_step s _ ?_ rfl (does_assign ..)
      simp only [Task.step, h₁, h₂]
    | none =>
      refine does_step s (pure ()) ?_ rfl does_pure
      simp only [Task.step, h₁, h₂]

theorem does_take (e : Evidence) : Does c 0 [.take e] (e.take c) s := by
  cases e with
  | hasType i t => exact does_step _ _ rfl rfl (does_assign c s i t false)
  | indexedAt i k => exact does_step (s.observe i k) (pure ()) rfl rfl does_pure
  | notAVector i length => exact does_fail rfl rfl
  | wrongArity k found => exact does_fail rfl rfl

theorem does_apply (f : Fallback) : Does c 1 [.apply f] (f.apply c) s := by
  cases f with
  | widen i k =>
    unfold Fallback.apply
    refine does_get_bind ?_
    dsimp only
    cases ht : Ty.forIndex? k with
    | none =>
      refine does_fail (e := .indexOutOfRange (s.graph.render i) k) ?_ rfl
      simp only [Task.step, ht]
    | some t =>
      let s' : State := { s with notes := s.notes.push (.widened (s.graph.render i) k t) }
      refine does_step s' _ ?_ rfl (does_assign c s' i t false)
      simp only [Task.step, ht, s']
  | hint i t => exact does_step _ _ rfl rfl (does_assign c _ i t false)
  | guess i t => exact does_step _ _ rfl rfl (does_assign c _ i t true)

variable {c s}

theorem does_resort_none (hf : c.fallback? s.graph = none) : Does c 0 [.resort] (pure ()) s := by
  refine does_step s (pure ()) ?_ rfl does_pure
  simp only [Task.step, hf]

theorem does_resort_some {f : Fallback} {n : Nat} {m : Solver Unit}
    (hf : c.fallback? s.graph = some f) (h : Does c n [.apply f, .drain, .resort] m s) :
    Does c n [.resort] m s := by
  refine does_step s m ?_ rfl h
  simp only [Task.step, hf]

end Operations

/-! ## The loops -/

/-- What a computation brings about where it ends well. -/
theorem Solver.Ends.of_ok {α : Type} {m : Solver α} {s s' : State} {a : α}
    {Q : α → State → Prop} {E : Error → Prop} (h : Ends m s Q E)
    (hr : m.run.run s = (.ok a, s')) : Q a s' := by
  unfold Ends at h
  rwa [hr] at h

/-- The nodes of the program without type. -/
def Context.lacking (c : Context) (g : Graph) : Finset Id := (c.untyped g).toFinset

@[simp] theorem Context.mem_lacking {c : Context} {g : Graph} {i : Id} :
    i ∈ c.lacking g ↔ i ∈ c.order ∧ g.ty? i = none :=
  List.mem_toFinset.trans mem_untyped

theorem Gathers.lacking_subset {s s' : State} (h : Gathers s s') (c : Context) :
    c.lacking s'.graph ⊆ c.lacking s.graph := fun i hi => by
  rw [Context.mem_lacking] at hi ⊢
  refine ⟨hi.1, Option.eq_none_iff_forall_ne_some.mpr fun t ht => ?_⟩
  rw [h.ty ht] at hi
  cases hi.2

section Loops

variable {k : Graph} (hk : k.InRange) {calls : CallTable} {s : State} (hs : Attached k s)

include hk hs

/-- **A rule of last resort that applies leaves fewer nodes of the program without type.** -/
theorem card_lacking_lt {f : Fallback} {s' : State}
    (hf : f.node ∈ (Context.of k calls).untyped s.graph)
    (hr : (f.apply (.of k calls)).run.run s = (.ok (), s')) :
    ((Context.of k calls).lacking s'.graph).card <
      ((Context.of k calls).lacking s.graph).card := by
  have hlive := (Context.mem_untyped.mp hf).1
  obtain ⟨⟨-, hgrow⟩, ht⟩ := (Onward.apply_typed hk hs (hk.lt_size hlive)).of_ok hr
  refine Finset.card_lt_card ⟨hgrow.toKeeps.gathers.lacking_subset _, fun hsub => ht ?_⟩
  exact (Context.mem_lacking.mp (hsub (List.mem_toFinset.mpr hf))).2

theorem does_drainUpTo {n : Nat} (hwork : s.work ≤ n) :
    Does (.of k calls) 0 [.drain] (drainUpTo (.of k calls) n) s := by
  induction n generalizing s with
  | zero =>
    have hp : s.pending = [] := by
      unfold State.work at hwork
      exact List.eq_nil_of_length_eq_zero (by omega)
    refine does_step s (pure ()) ?_ rfl does_pure
    simp only [Task.step, hp]
  | succ n ih =>
    unfold drainUpTo
    refine does_get_bind ?_
    cases hp : s.pending with
    | nil =>
      refine does_step s (pure ()) ?_ rfl does_pure
      simp only [Task.step, hp]
    | cons i rest =>
      let s₀ : State := { s with pending := rest }
      have hwork₀ : s₀.work + 1 = s.work := by
        unfold State.work
        rw [hp, List.length_cons, Nat.add_right_comm]
        rfl
      have hstep : Task.drain.step (.of k calls) s =
          .ok (((Context.of k calls).links i).map .share ++ [.drain], s₀) := by
        simp only [Task.step, hp, s₀]
      refine does_step s₀ (((Context.of k calls).links i).forM (share (.of k calls)) >>= fun _ =>
        drainUpTo (.of k calls) n) hstep rfl (a := 0) ?_
      refine (does_forM (fun p _ s => does_share _ s p) s₀).bind (b := 0) fun s₁ hr => ?_
      obtain ⟨hs₁, hgrow⟩ := (Onward.links (s := s₀) hk hs i).of_ok hr
      exact ih hs₁ (by rw [hgrow.work]; omega)

theorem does_settle {n : Nat} (hwork : s.work ≤ k.size) (hn : s.untyped ≤ n) :
    Does (.of k calls) ((Context.of k calls).lacking s.graph).card [.drain, .resort]
      (settle (.of k calls) n) s := by
  induction n generalizing s with
  | zero =>
    have hsettle : settle (.of k calls) 0 = drain (.of k calls) >>= fun _ => pure () :=
      (bind_pure (drain (.of k calls))).symm
    rw [hsettle]
    refine ((does_drainUpTo hk hs hwork).bind (b := 0) fun s₁ hr => ?_).mono (Nat.zero_le _)
    obtain ⟨hs₁, hkeep, -⟩ := (ends_drainUpTo_nil hk hs hwork).of_ok hr
    have hle := hkeep.untyped_le
    have hnone : (Context.of k calls).fallback? s₁.graph = none :=
      fallback?_eq_none (fun i hi => hs₁.size ▸ hk.lt_size hi) (by omega)
    exact does_resort_none hnone
  | succ n ih =>
    unfold settle
    refine ((does_drainUpTo hk hs hwork).bind fun s₁ hr => does_get_bind ?_).mono
      (Nat.zero_add _).le
    obtain ⟨hs₁, hkeep, hnil⟩ := (ends_drainUpTo_nil hk hs hwork).of_ok hr
    have hcard := Finset.card_le_card (hkeep.gathers.lacking_subset (.of k calls))
    have hle := hkeep.untyped_le
    cases hf : (Context.of k calls).fallback? s₁.graph with
    | none => exact (does_resort_none hf).mono (Nat.zero_le _)
    | some f =>
      have hnode := Context.node_mem_untyped hf
      have hpos : 0 < ((Context.of k calls).lacking s₁.graph).card :=
        Finset.card_pos.mpr ⟨_, List.mem_toFinset.mpr hnode⟩
      refine does_resort_some hf ?_
      refine ((does_apply _ s₁ f).bind (b := ((Context.of k calls).lacking s₁.graph).card - 1)
        fun s₂ hr' => ?_).mono (by omega)
      obtain ⟨⟨hs₂, hgrow⟩, hlt⟩ := (Onward.apply hk hs₁ hf).of_ok hr'
      have hwork₁ : s₁.work ≤ k.size := by
        unfold State.work
        rw [hnil, List.length_nil, Nat.zero_add, ← hs₁.size]
        exact State.untyped_le_size
      have hcard₂ := card_lacking_lt hk hs₁ hnode hr'
      exact (ih hs₂ (hgrow.work ▸ hwork₁) (by omega)).mono (by omega)

omit hs in
variable (calls) in
/-- **The machine does what inference does**, in at most as many rounds of the outer loop as there
are nodes of the program without type. -/
theorem does_solve : Does (.of k calls) ((Context.of k calls).lacking k).card
    (Task.start (.of k calls)) (solve (.of k calls)) { graph := k } := by
  unfold solve Task.start
  refine ((does_forM (fun e _ s => does_take _ s e) { graph := k }).bind fun s hr => ?_).mono
    (Nat.zero_add _).le
  obtain ⟨⟨hs, hwork⟩, hgather, -⟩ := (ends_seed_absorbed hk).of_ok hr
  have hn : s.untyped ≤ (Context.of k calls).graph.size := State.untyped_le_size.trans hs.size.le
  exact (does_settle hk hs hwork hn).mono
    (Finset.card_le_card (hgather.lacking_subset (.of k calls)))

end Loops

end ShaderScript.Infer
