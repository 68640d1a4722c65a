import ShaderScript.Proofs.Infer.Machine

/-!
# The loops of inference end

Every step of inference leaves the list of pending nodes as it is, takes one node off it, or puts a
node on it that gets its type in the same step. So a node becomes pending at most once, and the
pending nodes together with the nodes without type are a measure for the inner loop. The outer loop
runs on nodes of the program without type, of which each rule of last resort leaves fewer.

* `Change`: what one step does to pending nodes and types, with **`Task.step_change`**: every step
  of inference is one.
* `Path`: a list of such steps, with `Path.countP_pushes`: when a node becomes pending, and
  `Path.countP_pops`: how many pending nodes are looked at.
* **`infer_loops_end`**: the loops of inference end from every program and for every table of calls.
-/

namespace ShaderScript

namespace Infer

/-! ## Pending nodes -/

/-- The step from `s` to `s'` puts a node on the list of pending nodes. -/
def State.Pushes (s s' : State) (i : Id) : Prop := s'.pending = i :: s.pending

instance (s s' : State) (i : Id) : Decidable (s.Pushes s' i) := by
  unfold State.Pushes; infer_instance

/-- The step from `s` to `s'` takes the first node off the list of pending nodes. -/
def State.Pops (s s' : State) : Prop := s.pending ≠ [] ∧ s'.pending = s.pending.tail

instance (s s' : State) : Decidable (s.Pops s') := by unfold State.Pops; infer_instance

/-- What one step may do to pending nodes and types. -/
inductive Change (s : State) : State → Prop
  | keep {s'} : s'.pending = s.pending → s'.graph.size = s.graph.size →
      (∀ i, s'.graph.ty? i = s.graph.ty? i) → Change s s'
  | push {i} (t b) : i < s.graph.size → s.graph.ty? i = none → Change s (s.give i t b)
  | pop {i rest} : s.pending = i :: rest → Change s { s with pending := rest }

namespace Change

variable {s s' : State}

theorem refl (s : State) : Change s s := .keep rfl rfl fun _ => rfl

/-- **A node becomes pending in the step that gives it its type, and in no other.** -/
theorem pushes_iff (h : Change s s') (i : Id) :
    s.Pushes s' i ↔ s.graph.ty? i = none ∧ s'.graph.ty? i ≠ none := by
  unfold State.Pushes
  cases h with
  | keep hp _ hty =>
    rw [hp, hty i]
    exact ⟨fun h => absurd h List.ne_cons_self, fun h => absurd h.1 h.2⟩
  | @push j t b hj hn =>
    change j :: s.pending = i :: s.pending ↔ _
    by_cases hij : j = i
    · subst hij
      rw [State.ty?_give_self hj]
      exact ⟨fun _ => ⟨hn, Option.some_ne_none t⟩, fun _ => rfl⟩
    · rw [State.ty?_give_of_ne hij]
      exact ⟨fun h => absurd (List.cons.inj h).1 hij, fun h => absurd h.1 h.2⟩
  | @pop j rest hp =>
    refine ⟨fun h => ?_, fun h => absurd h.1 h.2⟩
    have hlen := congrArg List.length h
    simp only [hp, List.length_cons] at hlen
    omega

theorem ty_ne_none (h : Change s s') {i : Id} (hi : s.graph.ty? i ≠ none) :
    s'.graph.ty? i ≠ none := by
  cases h with
  | keep _ _ hty => rwa [hty i]
  | @push j t b _ hn =>
    have hij : j ≠ i := fun hij => hi (hij ▸ hn)
    rwa [State.ty?_give_of_ne hij]
  | pop => exact hi

theorem work_of_pops (h : Change s s') (hpops : s.Pops s') : s'.work + 1 = s.work := by
  obtain ⟨hne, htail⟩ := hpops
  have hlen : s'.pending.length + 1 = s.pending.length := by
    have hpos := List.length_pos_iff.mpr hne
    rw [htail, List.length_tail]
    omega
  cases h with
  | keep hp =>
    rw [hp] at hlen
    omega
  | @push i t b =>
    have hpush : (s.give i t b).pending.length = s.pending.length + 1 := rfl
    omega
  | pop =>
    unfold State.work
    rw [← hlen, Nat.add_right_comm]
    rfl

/-- Only taking a node off the list leaves less to do. -/
theorem work_of_not_pops (h : Change s s') (hp : ¬ s.Pops s') : s'.work = s.work := by
  cases h with
  | keep hp hsize hty =>
    unfold State.work State.untyped
    simp only [hp, hsize, hty]
  | push t b hi hn => exact State.work_give hi hn
  | @pop i rest hi =>
    exact absurd ⟨hi ▸ List.cons_ne_nil i rest, by rw [hi, List.tail_cons]⟩ hp

end Change

/-! ## Runs -/

/-- Steps of which each goes on from where the one before has come to. -/
inductive Path : State → List Move → State → Prop
  | nil {s} : Path s [] s
  | cons {m moves s'} : Change m.before m.after → Path m.after moves s' →
      Path m.before (m :: moves) s'

namespace Path

variable {s s' : State} {moves : List Move} (h : Path s moves s')

include h

theorem pushes_iff {m : Move} (hm : m ∈ moves) (i : Id) : m.before.Pushes m.after i ↔
    m.before.graph.ty? i = none ∧ m.after.graph.ty? i ≠ none := by
  induction h with
  | nil => cases hm
  | cons hchange _ ih =>
    rcases List.mem_cons.mp hm with rfl | hm
    · exact hchange.pushes_iff i
    · exact ih hm

theorem ty_ne_none {i : Id} (hi : s.graph.ty? i ≠ none) : s'.graph.ty? i ≠ none := by
  induction h with
  | nil => exact hi
  | cons hchange _ ih => exact ih (hchange.ty_ne_none hi)

/-- **A node becomes pending once if it gets its type on the way, and else not at all.** -/
theorem countP_pushes (i : Id) : moves.countP (fun m => m.before.Pushes m.after i) =
    if s.graph.ty? i = none ∧ s'.graph.ty? i ≠ none then 1 else 0 := by
  induction h with
  | nil => rw [List.countP_nil, if_neg fun hi => hi.2 hi.1]
  | @cons m moves s' hchange hpath ih =>
    rw [List.countP_cons, ih]
    simp only [decide_eq_true_eq, hchange.pushes_iff i]
    have hty := hchange.ty_ne_none (i := i)
    have hty' := hpath.ty_ne_none (i := i)
    split_ifs <;> tauto

/-- **The pending nodes that are looked at are paid for by what is left to do.** -/
theorem countP_pops : moves.countP (fun m => m.before.Pops m.after) + s'.work = s.work := by
  induction h with
  | nil => rw [List.countP_nil, Nat.zero_add]
  | @cons m moves s' hchange hpath ih =>
    rw [List.countP_cons]
    by_cases hp : m.before.Pops m.after
    · have hwork := hchange.work_of_pops hp
      simp only [hp, decide_true, if_true]
      omega
    · have hwork := hchange.work_of_not_pops hp
      simp only [hp, decide_false, Bool.false_eq_true, if_false]
      omega

end Path

/-! ## Every step is a change -/

/-- The nodes that a task is about are nodes of the program. -/
def Task.Within (k : Graph) : Task → Prop
  | take (.hasType i _) | give _ _ i => i < k.size
  | share p => Inside k p
  | apply f => f.node < k.size
  | _ => True

section Steps

variable {k : Graph} (hk : k.InRange) {calls : CallTable} {s s' : State} (hs : Attached k s)
  {t : Task} {ts more : List Task}

include hk

theorem Task.within_assign {i : Id} (hi : i < k.size) (t : Ty) (guessed : Bool) :
    ∀ u ∈ assign (.of k calls) i t guessed, u.Within k := by
  intro u hu
  obtain ⟨j, hj, rfl⟩ := List.mem_map.mp hu
  exact Context.occurrences_lt hk hi hj

include hs

/-- **Every step of inference is a change**, and stays within the program. -/
theorem Task.step_change (ht : t.Within k) (h : t.step (.of k calls) s = .ok (more, s')) :
    Change s s' ∧ Attached k s' ∧ ∀ u ∈ more, u.Within k := by
  have done : (Except.ok ([], s) : Except Error (List Task × State)) = .ok (more, s') →
      Change s s' ∧ Attached k s' ∧ ∀ u ∈ more, u.Within k := by
    intro h
    obtain ⟨rfl, rfl⟩ := Prod.mk.inj (Except.ok.inj h)
    exact ⟨.refl s, hs, fun _ hu => by cases hu⟩
  have assigned : ∀ (i : Id) (u : Ty) (b : Bool) (notes : Array Note), i < k.size →
      Except.ok (assign (.of k calls) i u b, { s with notes }) =
        (.ok (more, s') : Except Error (List Task × State)) →
      Change s s' ∧ Attached k s' ∧ ∀ u ∈ more, u.Within k := by
    intro i u b notes hi h
    obtain ⟨rfl, rfl⟩ := Prod.mk.inj (Except.ok.inj h)
    exact ⟨.keep rfl rfl fun _ => rfl, hs, within_assign hk hi u b⟩
  cases t with
  | take e =>
    cases e with
    | hasType i u => exact assigned i u false s.notes ht h
    | indexedAt i n =>
      obtain ⟨rfl, rfl⟩ := Prod.mk.inj (Except.ok.inj h)
      exact ⟨.keep rfl (Graph.size_modify _ _ _) fun j => State.ty?_observe s i j n,
        hs.modify (fun _ => rfl) fun _ => rfl, fun _ hu => by cases hu⟩
    | notAVector | wrongArity => cases h
  | give u b i =>
    cases hi : s.graph.ty? i with
    | none =>
      simp only [step, hi] at h
      obtain ⟨rfl, rfl⟩ := Prod.mk.inj (Except.ok.inj h)
      exact ⟨.push u b (hs.size ▸ ht) hi, hs.modify (fun _ => rfl) fun _ => rfl,
        fun _ hu => by cases hu⟩
    | some found =>
      simp only [step, hi] at h
      split_ifs at h
      exact done h
  | share p =>
    cases h₁ : s.graph.ty? p.1 with
    | some u =>
      cases h₂ : s.graph.ty? p.2 with
      | some v =>
        simp only [step, h₁, h₂] at h
        split_ifs at h
        exact done h
      | none =>
        simp only [step, h₁, h₂] at h
        exact assigned p.2 u _ s.notes ht.2 h
    | none =>
      cases h₂ : s.graph.ty? p.2 with
      | some v =>
        simp only [step, h₁, h₂] at h
        exact assigned p.1 v _ s.notes ht.1 h
      | none =>
        simp only [step, h₁, h₂] at h
        exact done h
  | drain =>
    cases hp : s.pending with
    | nil =>
      simp only [step, hp] at h
      exact done h
    | cons i rest =>
      simp only [step, hp] at h
      obtain ⟨rfl, rfl⟩ := Prod.mk.inj (Except.ok.inj h)
      refine ⟨.pop hp, hs, fun u hu => ?_⟩
      rcases List.mem_append.mp hu with hu | hu
      · obtain ⟨p, hp, rfl⟩ := List.mem_map.mp hu
        exact Context.inside_links hk hp
      · obtain rfl := List.mem_singleton.mp hu
        trivial
  | resort =>
    cases hf : (Context.of k calls).fallback? s.graph with
    | none =>
      simp only [step, hf] at h
      exact done h
    | some f =>
      simp only [step, hf] at h
      obtain ⟨rfl, rfl⟩ := Prod.mk.inj (Except.ok.inj h)
      have hnode : f.node < k.size :=
        hk.lt_size (Context.mem_untyped.mp (Context.node_mem_untyped hf)).1
      refine ⟨.refl s, hs, fun u hu => ?_⟩
      obtain rfl | rfl | rfl : u = .apply f ∨ u = .drain ∨ u = .resort := by simpa using hu
      · exact hnode
      · trivial
      · trivial
  | apply f =>
    cases f with
    | widen i n =>
      cases hn : Ty.forIndex? n with
      | none =>
        simp only [step, hn] at h
        cases h
      | some u =>
        simp only [step, hn] at h
        exact assigned i u false _ ht h
    | hint i u => exact assigned i u false _ ht h
    | guess i u => exact assigned i u true _ ht h

/-- **A run of inference is a path**, also where it fails. -/
theorem Run.path {moves : List Move} {out : Except Error Unit × State}
    (h : Run (.of k calls) ts s moves out) (hts : ∀ t ∈ ts, t.Within k) :
    Path s moves out.2 := by
  induction h with
  | nil => exact .nil
  | @fail t ts s e he => exact .cons (m := ⟨t, s, s⟩) (.refl s) .nil
  | @cons t ts s more s' moves out hstep _ ih =>
    obtain ⟨hchange, hs', hmore⟩ :=
      Task.step_change hk hs (hts t List.mem_cons_self) hstep
    refine .cons (m := ⟨t, s, s'⟩) hchange (ih hs' fun u hu => ?_)
    rcases List.mem_append.mp hu with hu | hu
    · exact hmore u hu
    · exact hts u (List.mem_cons_of_mem _ hu)

omit hs in
variable (calls) in
theorem Task.within_start : ∀ t ∈ start (.of k calls), t.Within k := by
  intro t ht
  rcases List.mem_append.mp ht with ht | ht
  · obtain ⟨e, he, rfl⟩ := List.mem_map.mp ht
    cases e with
    | hasType i u => exact Context.lt_of_hasType hk he
    | indexedAt | notAVector | wrongArity => trivial
  · obtain rfl | rfl : t = .drain ∨ t = .resort := by simpa using ht
    · trivial
    · trivial

end Steps

/-- The machine has one run from there, and this is how it ends and what steps it takes. -/
def HasRun (c : Context) (ts : List Task) (s : State) (moves : List Move)
    (out : Except Error Unit × State) : Prop :=
  ∀ moves' out', Run c ts s moves' out' ↔ moves' = moves ∧ out' = out

theorem Run.hasRun {c : Context} {ts : List Task} {s : State} {moves : List Move}
    {out : Except Error Unit × State} (h : Run c ts s moves out) : HasRun c ts s moves out := by
  refine fun moves' out' => ⟨h.unique, ?_⟩
  rintro ⟨rfl, rfl⟩
  exact h

end Infer

open Infer

/-- **The loops of inference end.** With no bound built into them, they have one run from every
program and for every table of calls, and it ends with what inference gives, a result or an error.
In that run a node becomes pending in the step that gives it its type and in no other, hence at most
once, and there are at most as many rounds as there are nodes of the program without type. A pass of
the inner loop, from wherever it starts, looks at no more nodes than are pending or without type.
And a rule of last resort that applies leaves fewer nodes of the program without type. -/
theorem infer_loops_end {k : Graph} (hk : k.InRange) (calls : CallTable) :
    (∃ moves, HasRun (.of k calls) (Task.start (.of k calls)) { graph := k } moves
        ((solve (.of k calls)).run.run { graph := k }) ∧
      (∀ m ∈ moves, ∀ i, m.before.Pushes m.after i ↔
        m.before.graph.ty? i = none ∧ m.after.graph.ty? i ≠ none) ∧
      (∀ i, moves.countP (fun m => m.before.Pushes m.after i) ≤ 1) ∧
      moves.countP (·.task.isApply) ≤ ((Context.of k calls).lacking k).card) ∧
    (∀ s, Attached k s → ∃ moves, HasRun (.of k calls) [.drain] s moves
        ((drainUpTo (.of k calls) s.work).run.run s) ∧
      moves.countP (fun m => m.before.Pops m.after) ≤ s.pending.length + s.untyped) ∧
    ∀ s f s', Attached k s → (Context.of k calls).widening? s.graph = some f ∨
      (Context.of k calls).hinting? s.graph = some f ∨
      (Context.of k calls).guessing? s.graph = some f →
      (f.apply (.of k calls)).run.run s = (.ok (), s') →
        ((Context.of k calls).lacking s'.graph).card <
          ((Context.of k calls).lacking s.graph).card := by
  refine ⟨?_, fun s hs => ?_, fun s f s' hs hf => ?_⟩
  · obtain ⟨moves, hrun, hrounds⟩ := does_solve hk calls
    have hpath := hrun.path (s := { graph := k }) hk (.refl (fun _ => rfl) k)
      (Task.within_start hk calls)
    refine ⟨moves, hrun.hasRun, fun m hm i => hpath.pushes_iff hm i, fun i => ?_, hrounds⟩
    rw [hpath.countP_pushes]
    split_ifs <;> decide
  · obtain ⟨moves, hrun, -⟩ : Does (.of k calls) 0 [.drain] (drainUpTo (.of k calls) s.work) s :=
      does_drainUpTo hk hs le_rfl
    have hpath := hrun.path hk hs fun t ht => by
      obtain rfl := List.mem_singleton.mp ht
      trivial
    have hpops := hpath.countP_pops
    unfold State.work at hpops
    exact ⟨moves, hrun.hasRun, by omega⟩
  · exact card_lacking_lt hk hs (Context.node_mem_of_found hf)

/-- A program of sixteen nodes without type goes through at most sixteen rounds, and none of its
nodes becomes pending twice. -/
theorem infer_loops_end_indexedInCallee :
    indexedInCallee.InRange ∧
    (infer indexedInCallee (CallTable.resolve indexedInCallee)).failure = none ∧
    ∃ moves, HasRun (.of indexedInCallee (CallTable.resolve indexedInCallee))
        (Task.start (.of indexedInCallee (CallTable.resolve indexedInCallee)))
        { graph := indexedInCallee } moves
        ((solve (.of indexedInCallee (CallTable.resolve indexedInCallee))).run.run
          { graph := indexedInCallee }) ∧
      (∀ i, moves.countP (fun m => m.before.Pushes m.after i) ≤ 1) ∧
      moves.countP (·.task.isApply) ≤ 16 := by
  have hk : indexedInCallee.InRange := by decide +kernel
  obtain ⟨⟨moves, hrun, -, honce, hrounds⟩, -⟩ :=
    infer_loops_end hk (CallTable.resolve indexedInCallee)
  have hcard : ((Context.of indexedInCallee (CallTable.resolve indexedInCallee)).lacking
      indexedInCallee).card = 16 := by decide +kernel
  exact ⟨hk, by decide +kernel, moves, hrun, honce, hcard ▸ hrounds⟩

end ShaderScript
