import ShaderScript.Infer.Run
import ShaderScript.Proofs.Checked.Links
import ShaderScript.Proofs.Checked.Text

/-!
# Checked inference

Inference writes types to the nodes of one program and never makes a node another. So in every state
that it goes through the numbers are those of the program it started with.

* `Checked.Solver`: computations that give types to nodes, fail, or stop at a fault.
* `Checked.Agrees`: a computation that goes as the one without checks does, with one rule for each
  way to build computations.
* `Checked.assign_agrees`, `Checked.drain_agrees`, `Checked.settle_agrees`: the parts of inference.
* **`Checked.infer_eq`**: the whole of it.
-/

namespace ShaderScript.Checked

open Infer (State Evidence Fallback Attached)

/-- A computation that gives types to nodes or fails, and that stops at a fault. -/
abbrev Solver := ExceptT Error (StateT State Checked)

/-! ## Spreading types -/

/-- The error of a node that has one type and needs another. -/
def contradiction (g : Graph) (i : Id) (first second : Ty) : Checked Error := do
  return .typeContradiction (← render g i) first second

/-- The state after a node without type has got one. -/
def give (s : State) (i : Id) (t : Ty) (guessed : Bool) : Checked State := do
  return {
    graph := ← modify s.graph i ({ · with ty := some t, guessed })
    pending := i :: s.pending
    notes := s.notes.push (.typed (← render s.graph i) t) }

/-- Gives a type to one node. -/
def assignNode (t : Ty) (guessed : Bool) (i : Id) : Solver Unit := do
  let s ← get
  match ← ty? s.graph i with
  | some found => if found = t then pure () else throw (← contradiction s.graph i found t)
  | none => set (← give s i t guessed)

section Parts

variable (c : Context)

/-- Gives a type to a node and to its whole binding. -/
def assign (i : Id) (t : Ty) (guessed : Bool) : Solver Unit := do
  (← occurrences c.table i).forM (assignNode t guessed)

/-- Makes two nodes agree. -/
def share (p : Id × Id) : Solver Unit := do
  let s ← get
  match ← ty? s.graph p.1, ← ty? s.graph p.2 with
  | some t, some u => if t = u then pure () else throw (← contradiction s.graph p.2 u t)
  | some t, none => assign c p.2 t (← node s.graph p.1).guessed
  | none, some u => assign c p.1 u (← node s.graph p.2).guessed
  | none, none => pure ()

/-- Notes that a node is indexed at a position. -/
def observeIndex (i : Id) (k : Nat) : Solver Unit := do
  let s ← get
  let graph ← modify s.graph i fun n => { n with topIndex := some (max (n.topIndex.getD k) k) }
  set { s with graph }

/-- Takes in one piece of evidence. -/
def take : Evidence → Solver Unit
  | .hasType i t => assign c i t false
  | .indexedAt i k => observeIndex i k
  | .notAVector i length => do
    let s ← get
    throw (.invalidVectorLiteral (← render s.graph i) length)
  | .wrongArity e found => throw (.arityMismatch e.name e.arity found)

/-- Takes in all evidence. -/
def seed : Solver Unit := do (← c.evidence).forM (take c)

/-- Spreads the types of pending nodes, at most `n` of them. -/
def drainUpTo : Nat → Solver Unit
  | 0 => pure ()
  | n + 1 => do
    let s ← get
    match s.pending with
    | [] => pure ()
    | i :: pending =>
      set { s with pending }
      (← c.links i).forM (share c)
      drainUpTo n

/-- Spreads types until no node is pending. -/
def drain : Solver Unit := drainUpTo c c.graph.size

/-! ## Last resorts -/

/-- The largest literal position at which a node or its binding is indexed. -/
def topIndex? (g : Graph) (i : Id) : Checked (Option Nat) := do
  return (← filterMap (fun o => do return (← node g o).topIndex) (← occurrences c.table i)).max?

/-- The nodes without type. -/
def untyped (g : Graph) : Checked (List Id) :=
  filter (fun i => do return (← ty? g i).isNone) c.order

/-- The node without type that is indexed at the largest literal position. -/
def widening? (g : Graph) : Checked (Option Fallback) := do
  let indexed ← filterMap (fun i => do return (← topIndex? c g i).map fun k => (i, k))
    (← untyped c g)
  return (Infer.Context.firstLargest indexed).map fun (i, k) => .widen i k

/-- The first node without type that has a hint. -/
def hinting? (g : Graph) : Checked (Option Fallback) := do
  (← untyped c g).findSomeM? fun i => do return (← node g i).hint.map fun t => .hint i t

/-- Whether a node is the callee of a call. -/
def isCallee (i : Id) : Checked Bool := do
  match ← parent? c.graph i with
  | none => return false
  | some p => ask c.graph p fun
    | .call callee _ => callee == i
    | _ => false

/-- Whether an identifier ends up in the shader under its own type. -/
def needsType (i : Id) : Checked Bool := do
  if ← isOccurrence c.graph i then
    match ← parent? c.graph i with
    | none => return true
    | some p =>
      match ← kind c.graph p with
      | .function name _ _ => return name != i
      | .field object _ => return object != i || !(← isCallee c p)
      | _ => return true
  else return false

/-- The first identifier without type that needs one. -/
def guessing? (g : Graph) : Checked (Option Fallback) := do
  match ← (← untyped c g).findM? (needsType c) with
  | none => return none
  | some i => return some (.guess i (((← topIndex? c g i).bind Ty.forIndex?).getD .float))

/-- The rule of last resort that applies next. -/
def fallback? (g : Graph) : Checked (Option Fallback) := do
  match ← widening? c g with
  | some f => return some f
  | none =>
    match ← hinting? c g with
    | some f => return some f
    | none => guessing? c g

/-- Adds a note. -/
def note (n : Note) : Solver Unit := do
  let s ← get
  set { s with notes := s.notes.push n }

/-- Applies a rule of last resort. -/
def applyFallback : Fallback → Solver Unit
  | .widen i k => do
    let s ← get
    let text ← render s.graph i
    match Ty.forIndex? k with
    | none => throw (.indexOutOfRange text k)
    | some t =>
      note (.widened text k t)
      assign c i t false
  | .hint i t => do
    let s ← get
    note (.hinted (← render s.graph i) t)
    assign c i t false
  | .guess i t => do
    let s ← get
    note (.guessed (← render s.graph i) t)
    assign c i t true

/-- Spreads types and applies rules of last resort, at most `n` of them. -/
def settle : Nat → Solver Unit
  | 0 => drain c
  | n + 1 => do
    drain c
    let s ← get
    match ← fallback? c s.graph with
    | none => pure ()
    | some f =>
      applyFallback c f
      settle n

/-- The whole of inference. -/
def solve : Solver Unit := do
  seed c
  settle c c.graph.size

end Parts

/-- Gives a type to every identifier of a program and to every expression that types reach. -/
def infer (g : Graph) (calls : CallTable) : Checked Inferred := do
  let c ← Context.of g calls
  let (result, s) ← (solve c).run.run { graph := g }
  return {
    graph := s.graph
    notes := s.notes.toList
    failure := match result with
      | .ok _ => none
      | .error e => some e }

/-! ## Computations that agree -/

/-- The program is the one that inference started with, up to facts, and the pending nodes are nodes
of it. -/
structure Within (g : Graph) (s : State) : Prop where
  attached : Attached g s
  pending_lt : ∀ i ∈ s.pending, i < g.size

section Agrees

variable {α β : Type} {g : Graph} {s : State}

/-- Started in a state, the computation goes as the one without checks does and stays within the
program. -/
structure Agrees (g : Graph) (m' : Solver α) (m : Infer.Solver α) (s : State) : Prop where
  eq : m'.run.run s = .ok (m.run.run s)
  within : Within g (m.run.run s).2

theorem agrees_pure (hs : Within g s) (a : α) : Agrees g (pure a) (pure a) s := ⟨rfl, hs⟩

theorem agrees_throw (hs : Within g s) (e : Error) :
    Agrees g (throw e : Solver α) (throw e) s := ⟨rfl, hs⟩

theorem agrees_set {s' : State} (hs : Within g s') : Agrees g (set s') (set s') s := ⟨rfl, hs⟩

theorem agrees_get_bind {f' : State → Solver β} {f : State → Infer.Solver β}
    (h : Agrees g (f' s) (f s) s) : Agrees g (get >>= f') (get >>= f) s := ⟨h.eq, h.within⟩

theorem agrees_lift {x : Checked α} {a : α} {f' : α → Solver β} {m : Infer.Solver β}
    (hx : x = .ok a) (h : Agrees g (f' a) m s) : Agrees g (liftM x >>= f') m s := by
  subst hx
  exact ⟨h.eq, h.within⟩

theorem Agrees.bind {m' : Solver α} {m : Infer.Solver α} {f' : α → Solver β}
    {f : α → Infer.Solver β} (hm : Agrees g m' m s)
    (hf : ∀ a s', Within g s' → Agrees g (f' a) (f a) s') : Agrees g (m' >>= f') (m >>= f) s := by
  have hrun : (m' >>= f').run.run s = (m'.run.run s >>= fun
      | (.ok a, s') => (f' a).run.run s'
      | (.error e, s') => .ok (.error e, s')) := by
    rw [ExceptT.run_bind, StateT.run_bind]
    refine bind_congr fun p => ?_
    rcases p with ⟨_ | _, _⟩ <;> rfl
  obtain ⟨heq, hs'⟩ := hm
  rcases hr : m.run.run s with ⟨e | a, s'⟩
  all_goals
    rw [hr] at heq hs'
    rw [heq, ok_bind] at hrun
    have hplain := Infer.Solver.run_run_bind (s := s) m f
    rw [hr] at hplain
  · exact ⟨hrun.trans (congrArg Except.ok hplain.symm), hplain ▸ hs'⟩
  · have ha := hf a s' hs'
    exact ⟨hrun.trans (ha.eq.trans (congrArg Except.ok hplain.symm)), hplain ▸ ha.within⟩

theorem agrees_forM {xs : List α} {f' : α → Solver PUnit} {f : α → Infer.Solver PUnit}
    (hf : ∀ x ∈ xs, ∀ s, Within g s → Agrees g (f' x) (f x) s) (hs : Within g s) :
    Agrees g (xs.forM f') (xs.forM f) s := by
  induction xs generalizing s with
  | nil => exact agrees_pure hs _
  | cons x xs ih =>
    rw [List.forM_eq_forM, List.forM_eq_forM, List.forM_cons, List.forM_cons]
    exact (hf x List.mem_cons_self s hs).bind fun _ _ hs' =>
      ih (fun y hy => hf y (List.mem_cons_of_mem _ hy)) hs'

end Agrees

/-! ## No step fails -/

section Steps

variable {g : Graph} (h : g.Closed) {s : State} (hs : Within g s) {i : Id}

include h hs

theorem covers_of_within : s.graph.Covers g.size :=
  h.covers.renamed hs.attached.renamed_of_eq

theorem contradiction_eq (hi : i < g.size) (first second : Ty) :
    contradiction s.graph i first second = .ok (Infer.contradiction s.graph i first second) := by
  have hk := covers_of_within h hs
  unfold contradiction
  rw [render_eq hk.toClosed (hk.lt_size hi)]
  rfl

theorem give_eq (hi : i < g.size) (t : Ty) (b : Bool) : give s i t b = .ok (s.give i t b) := by
  have hk := covers_of_within h hs
  unfold give
  rw [modify_eq (hk.lt_size hi), ok_bind, render_eq hk.toClosed (hk.lt_size hi)]
  rfl

theorem assignNode_agrees (hi : i < g.size) (t : Ty) (b : Bool) :
    Agrees g (assignNode t b i) (Infer.assignNode t b i) s := by
  have hlt := (covers_of_within h hs).lt_size hi
  refine agrees_get_bind (agrees_lift (ty?_eq hlt) ?_)
  cases s.graph.ty? i with
  | some found =>
    dsimp only
    split_ifs
    · exact agrees_pure hs _
    · exact agrees_lift (contradiction_eq h hs hi found t) (agrees_throw hs _)
  | none =>
    have hgive : Within g (s.give i t b) :=
      ⟨hs.attached.modify (fun _ => rfl) fun _ => rfl, List.forall_mem_cons.mpr ⟨hi, hs.pending_lt⟩⟩
    exact agrees_lift (give_eq h hs hi t b) (agrees_set hgive)

omit h in
theorem note_agrees (n : Note) : Agrees g (note n) (Infer.note n) s :=
  ⟨rfl, hs.attached, hs.pending_lt⟩

theorem observeIndex_agrees (hi : i < g.size) (k : Nat) :
    Agrees g (observeIndex i k) (Infer.observeIndex i k) s := by
  have hlt := (covers_of_within h hs).lt_size hi
  have hagrees : Agrees g (observeIndex i k) (do
      let s ← get
      set { s with graph := s.graph.modify i fun n =>
        { n with topIndex := some (max (n.topIndex.getD k) k) } }) s :=
    agrees_get_bind (agrees_lift (modify_eq hlt _)
      (agrees_set ⟨hs.attached.modify (fun _ => rfl) fun _ => rfl, hs.pending_lt⟩))
  exact ⟨hagrees.eq, hagrees.within⟩

end Steps

theorem lt_of_notAVector {g : Graph} (h : g.InRange) {calls : CallTable} {i : Id} {length : Nat}
    (he : .notAVector i length ∈ (Infer.Context.of g calls).evidence) : i < g.size := by
  obtain ⟨j, hj, he | he | he⟩ := Infer.Context.mem_evidence.mp he
  · obtain ⟨es, -, ⟨t, -, he | ⟨a, -, he⟩⟩ | ⟨-, he⟩⟩ := Infer.Context.mem_arrayEvidence.mp he
    · cases he
    · cases he
    · cases he
      exact h.lt_size hj
  · obtain ⟨_, _, _, -, -, he | ⟨-, _, _, -, he⟩ | ⟨-, he⟩⟩ := Infer.Context.mem_callEvidence.mp he
    all_goals cases he
  · obtain ⟨_, _, -, he | he | ⟨_, -, he⟩⟩ := Infer.Context.mem_indexEvidence.mp he
    all_goals cases he

section Run

variable {g : Graph} (h : g.Closed) {c : Context} (hc : Reflects c (.of g (.resolve g)))
  {s : State} {i : Id}

include h hc

theorem assign_agrees (hs : Within g s) (hi : i < g.size) (t : Ty) (b : Bool) :
    Agrees g (assign c i t b) (Infer.assign (.of g (.resolve g)) i t b) s :=
  agrees_lift (occurrences_eq hc.numbered) (agrees_forM (fun _ hj _ hs =>
    assignNode_agrees h hs (Graph.occurrences_lt h.toInRange hi hj) t b) hs)

theorem share_agrees (hs : Within g s) {p : Id × Id} (hp : Infer.Inside g p) :
    Agrees g (share c p) (Infer.share (.of g (.resolve g)) p) s := by
  have hk := covers_of_within h hs
  refine agrees_get_bind (agrees_lift (ty?_eq (hk.lt_size hp.1))
    (agrees_lift (ty?_eq (hk.lt_size hp.2)) ?_))
  dsimp only
  cases s.graph.ty? p.1 with
  | some t =>
    cases s.graph.ty? p.2 with
    | some u =>
      dsimp only
      split_ifs
      · exact agrees_pure hs _
      · exact agrees_lift (contradiction_eq h hs hp.2 u t) (agrees_throw hs _)
    | none => exact agrees_lift (node_eq (hk.lt_size hp.1)) (assign_agrees h hc hs hp.2 t _)
  | none =>
    cases s.graph.ty? p.2 with
    | some u => exact agrees_lift (node_eq (hk.lt_size hp.2)) (assign_agrees h hc hs hp.1 u _)
    | none => exact agrees_pure hs _

theorem take_agrees (hs : Within g s) {e : Evidence}
    (he : e ∈ (Infer.Context.of g (.resolve g)).evidence) :
    Agrees g (take c e) (e.take (.of g (.resolve g))) s := by
  cases e with
  | hasType i t => exact assign_agrees h hc hs (Infer.Context.lt_of_hasType h.toInRange he) t false
  | indexedAt i k => exact observeIndex_agrees h hs (Infer.Context.lt_of_indexedAt h.toInRange he) k
  | notAVector i length =>
    have hk := covers_of_within h hs
    have hi := lt_of_notAVector h.toInRange he
    exact agrees_get_bind (agrees_lift (render_eq hk.toClosed (hk.lt_size hi)) (agrees_throw hs _))
  | wrongArity e found => exact agrees_throw hs _

theorem seed_agrees (hs : Within g s) :
    Agrees g (seed c) (Infer.seed (.of g (.resolve g))) s :=
  agrees_lift (evidence_eq h hc) (agrees_forM (fun _ he _ hs => take_agrees h hc hs he) hs)

theorem drainUpTo_agrees (n : Nat) (hs : Within g s) :
    Agrees g (drainUpTo c n) (Infer.drainUpTo (.of g (.resolve g)) n) s := by
  induction n generalizing s with
  | zero => exact agrees_pure hs _
  | succ n ih =>
    refine agrees_get_bind ?_
    rcases hpending : s.pending with _ | ⟨i, pending⟩
    · exact agrees_pure hs _
    · obtain ⟨hi, hrest⟩ := List.forall_mem_cons.mp (hpending ▸ hs.pending_lt)
      have hset : Within g { s with pending } := ⟨hs.attached, hrest⟩
      refine (agrees_set hset).bind fun _ s' hs' => ?_
      refine agrees_lift (links_eq h hc hi) (Agrees.bind (agrees_forM (fun p hp _ hs => ?_) hs')
        fun _ _ hs => ih hs)
      exact share_agrees h hc hs (Infer.Context.inside_links h.toInRange hp)

theorem drain_agrees (hs : Within g s) :
    Agrees g (drain c) (Infer.drain (.of g (.resolve g))) s := by
  unfold drain Infer.drain
  rw [hc.graph]
  exact drainUpTo_agrees h hc _ hs

end Run

/-! ## Last resorts -/

section LastResorts

variable {g : Graph} (h : g.Closed) {c : Context} (hc : Reflects c (.of g (.resolve g)))
  {k : Graph} (hk : k.Covers g.size) {i : Id}

include hc

include h hk in
theorem topIndex?_eq (hi : i < g.size) :
    topIndex? c k i = .ok ((Infer.Context.of g (.resolve g)).topIndex? k i) := by
  have htops : filterMap (fun o => do return (← node k o).topIndex)
      ((Scopes.resolve g).occurrences i) =
        .ok (((Scopes.resolve g).occurrences i).filterMap fun o => (k.node o).topIndex) :=
    filterMap_ok fun o ho => by
      rw [node_eq (hk.lt_size (Graph.occurrences_lt h.toInRange hi ho))]
      rfl
  unfold topIndex? Infer.Context.topIndex?
  rw [occurrences_eq hc.numbered, ok_bind, Infer.Context.of_scopes, htops]
  rfl

include h hk in
theorem untyped_eq : untyped c k = .ok ((Infer.Context.of g (.resolve g)).untyped k) := by
  unfold untyped Infer.Context.untyped
  rw [hc.order, Infer.Context.of_order]
  refine filter_ok fun i hi => ?_
  rw [ty?_eq (hk.lt_size (h.toInRange.lt_size hi))]
  rfl

omit hc in
include h in
theorem untyped_lt {calls : CallTable} (hi : i ∈ (Infer.Context.of g calls).untyped k) :
    i < g.size :=
  h.toInRange.lt_size (List.mem_filter.mp hi).1

include h hk

theorem widening?_eq :
    widening? c k = .ok ((Infer.Context.of g (.resolve g)).widening? k) := by
  unfold widening? Infer.Context.widening?
  rw [untyped_eq h hc hk, ok_bind, filterMap_ok fun i hi => by
    rw [topIndex?_eq h hc hk (untyped_lt h hi)]
    rfl]
  rfl

theorem hinting?_eq : hinting? c k = .ok ((Infer.Context.of g (.resolve g)).hinting? k) := by
  unfold hinting? Infer.Context.hinting?
  rw [untyped_eq h hc hk, ok_bind]
  refine findSomeM?_ok fun i hi => ?_
  rw [node_eq (hk.lt_size (untyped_lt h hi))]
  rfl

omit hk

theorem isCallee_eq (hi : i < g.size) :
    isCallee c i = .ok ((Infer.Context.of g (.resolve g)).isCallee i) := by
  unfold isCallee Infer.Context.isCallee
  rw [hc.graph, Infer.Context.of_graph, parent?_eq hi, ok_bind]
  cases hp : g.parent? i with
  | none => rfl
  | some p =>
    dsimp only
    rw [ask_eq (h.parent_lt hp), Option.map_some]
    cases g.kind p <;> rfl

theorem needsType_eq (hi : i < g.size) :
    needsType c i = .ok ((Infer.Context.of g (.resolve g)).needsType i) := by
  unfold needsType Infer.Context.needsType
  rw [hc.graph, Infer.Context.of_graph, isOccurrence_eq h hi, ok_bind]
  cases g.isOccurrence i with
  | false => rfl
  | true =>
    rw [if_pos rfl, parent?_eq hi, ok_bind, Bool.true_and]
    cases hp : g.parent? i with
    | none => rfl
    | some p =>
      dsimp only
      rw [kind_eq (h.parent_lt hp), ok_bind, isCallee_eq h hc (h.parent_lt hp)]
      cases g.kind p <;> rfl

include hk

theorem guessing?_eq : guessing? c k = .ok ((Infer.Context.of g (.resolve g)).guessing? k) := by
  have hfind : ((Infer.Context.of g (.resolve g)).untyped k).findM? (needsType c) =
      .ok (((Infer.Context.of g (.resolve g)).untyped k).find?
        (Infer.Context.of g (.resolve g)).needsType) :=
    findM?_ok fun i hi => needsType_eq h hc (untyped_lt h hi)
  unfold guessing? Infer.Context.guessing?
  rw [untyped_eq h hc hk, ok_bind, hfind, ok_bind]
  cases hi : ((Infer.Context.of g (.resolve g)).untyped k).find?
      (Infer.Context.of g (.resolve g)).needsType with
  | none => rfl
  | some i =>
    dsimp only
    rw [topIndex?_eq h hc hk (untyped_lt h (List.mem_of_find?_eq_some hi))]
    rfl

theorem fallback?_eq : fallback? c k = .ok ((Infer.Context.of g (.resolve g)).fallback? k) := by
  unfold fallback? Infer.Context.fallback?
  rw [widening?_eq h hc hk, ok_bind]
  cases (Infer.Context.of g (.resolve g)).widening? k with
  | some f => rfl
  | none =>
    dsimp only
    rw [hinting?_eq h hc hk, ok_bind, Option.none_or]
    cases (Infer.Context.of g (.resolve g)).hinting? k with
    | some f => rfl
    | none => exact guessing?_eq h hc hk

end LastResorts

section Settle

variable {g : Graph} (h : g.Closed) {c : Context} (hc : Reflects c (.of g (.resolve g)))
  {s : State}

include h hc

theorem applyFallback_agrees (hs : Within g s) {f : Fallback} (hf : f.node < g.size) :
    Agrees g (applyFallback c f) (f.apply (.of g (.resolve g))) s := by
  have hk := covers_of_within h hs
  have htext := render_eq hk.toClosed (hk.lt_size hf)
  cases f with
  | widen i m =>
    refine agrees_get_bind (agrees_lift htext ?_)
    dsimp only
    cases Ty.forIndex? m with
    | none => exact agrees_throw hs _
    | some t => exact (note_agrees hs _).bind fun _ _ hs => assign_agrees h hc hs hf t false
  | hint i t =>
    exact agrees_get_bind (agrees_lift htext
      ((note_agrees hs _).bind fun _ _ hs => assign_agrees h hc hs hf t false))
  | guess i t =>
    exact agrees_get_bind (agrees_lift htext
      ((note_agrees hs _).bind fun _ _ hs => assign_agrees h hc hs hf t true))

theorem settle_agrees (n : Nat) (hs : Within g s) :
    Agrees g (settle c n) (Infer.settle (.of g (.resolve g)) n) s := by
  induction n generalizing s with
  | zero => exact drain_agrees h hc hs
  | succ n ih =>
    refine (drain_agrees h hc hs).bind fun _ s' hs' => agrees_get_bind ?_
    refine agrees_lift (fallback?_eq h hc (covers_of_within h hs')) ?_
    cases hf : (Infer.Context.of g (.resolve g)).fallback? s'.graph with
    | none => exact agrees_pure hs' _
    | some f =>
      have hnode := untyped_lt h (Infer.Context.node_mem_untyped hf)
      exact (applyFallback_agrees h hc hs' hnode).bind fun _ _ hs => ih hs

theorem solve_agrees (hs : Within g s) :
    Agrees g (solve c) (Infer.solve (.of g (.resolve g))) s := by
  unfold solve Infer.solve
  rw [hc.graph]
  exact (seed_agrees h hc hs).bind fun _ _ hs => settle_agrees h hc _ hs

end Settle

/-- **No step of inference fails**, and it leaves a closed graph with the same nodes. -/
theorem infer_eq {g : Graph} (h : g.Closed) :
    infer g (.resolve g) = .ok (ShaderScript.infer g (.resolve g)) ∧
      (ShaderScript.infer g (.resolve g)).graph.Covers g.size := by
  obtain ⟨c, hof, hc⟩ := contextOf_ok h (.resolve g)
  have hstart : Within g { graph := g } := ⟨.refl (fun _ => rfl) g, fun _ hi => (by cases hi)⟩
  refine ⟨?_, h.covers.renamed (changed_infer g _).renamed_of_eq⟩
  unfold infer ShaderScript.infer
  rw [hof, ok_bind, (solve_agrees h hc hstart).eq]
  rfl

end ShaderScript.Checked
