import ShaderScript.Proofs.Infer.Budget
import ShaderScript.Proofs.Renumber.Stage

/-!
# Inference in a copy

Inference looks at the nodes of a copy in the order in which it looks at the nodes of the original,
and so it finds the same types or fails with the same error.

* `Graph.Copy.links`, `Graph.Copy.evidence`, `Graph.Copy.fallback?`: what inference looks at in a
  copy.
* `Solver.Both`: how two computations end together, with one rule for each way to build them.
* `State.Copy`: a state of inference in the copy.
* `both_assign`, `both_share`, `both_drainUpTo`, `both_settle`: one lemma for each operation.
* **`Graph.Copy.infer`**: inference in a copy.
-/

namespace ShaderScript

namespace Infer

/-! ## Under other numbers -/

/-- Evidence under other numbers. -/
def Evidence.map (f : Id → Id) : Evidence → Evidence
  | hasType i t => hasType (f i) t
  | indexedAt i k => indexedAt (f i) k
  | notAVector i length => notAVector (f i) length
  | wrongArity e found => wrongArity e found

/-- A rule of last resort at another number. -/
def Fallback.map (f : Id → Id) : Fallback → Fallback
  | widen i k => widen (f i) k
  | hint i t => hint (f i) t
  | guess i t => guess (f i) t

theorem Context.firstLargest_map (f : Id → Id) (ps : List (Id × Nat)) :
    firstLargest (ps.map (Prod.map f id)) = (firstLargest ps).map (Prod.map f id) := by
  cases ps with
  | nil => rfl
  | cons p ps =>
    refine congrArg some (Eq.symm ?_)
    refine Graph.Copy.foldl (R := fun a b => Prod.map f id a = b) (Prod.map f id) (s := p) rfl ?_
    rintro a _ q rfl
    simp only [Prod.map_snd, id_eq]
    split_ifs <;> rfl

end Infer

namespace Graph.Copy

open Infer

variable {f : Id → Id} {k g x y : Graph} (r : Copy True f k g) (hk : k.Whole) (calls : CallTable)

include r

/-! ## Pairs -/

theorem formLinks (i : Id) : (Context.of g (calls.map f)).formLinks (f i) =
    ((Context.of k calls).formLinks i).map (Prod.map f f) := by
  unfold Context.formLinks
  rw [Context.of_graph, Context.of_graph, r.kind]
  cases k.kind i <;> rfl

theorem callLinks (name : Id) (params : List Id) (i : Id) :
    (Context.of g (calls.map f)).callLinks (f name) (params.map f) (f i) =
      ((Context.of k calls).callLinks name params i).map (Prod.map f f) := by
  unfold Context.callLinks
  rw [Context.of_graph, Context.of_graph, r.parent?]
  cases k.parent? i with
  | none => rfl
  | some call =>
    dsimp only [Option.map_some]
    rw [r.kind]
    cases k.kind call with
    | call callee args =>
      simp only [Kind.map, r.eq_iff, List.length_map]
      split_ifs
      · rw [List.map_cons, ← List.zip_map]
        rfl
      · rfl
    | _ => rfl

include hk

theorem occurrences (i : Id) : (Context.of g (calls.map f)).scopes.occurrences (f i) =
    ((Context.of k calls).scopes.occurrences i).map f := by
  rw [Context.of_scopes, Context.of_scopes, r.scopes hk.bounded, Scopes.occurrences_map r.inj]

theorem functionLinks (i : Id) : (Context.of g (calls.map f)).functionLinks (f i) =
    ((Context.of k calls).functionLinks i).map (Prod.map f f) := by
  unfold Context.functionLinks
  rw [Context.of_graph, Context.of_graph, r.kind]
  cases k.kind i with
  | function name params body =>
    simp only [Kind.map, List.map_append, r.occurrences hk, List.flatMap_map, List.map_flatMap,
      r.callLinks, r.returns (hk.bounded i), List.filterMap_map, List.map_map]
    refine congrArg₂ (· ++ ·) rfl ?_
    rw [show g.returned? ∘ f = fun j => (k.returned? j).map f from funext r.returned?,
      ← List.map_filterMap, List.map_map]
    rfl
  | _ => rfl

theorem returnLinks (i value : Id) :
    (Context.of g (calls.map f)).returnLinks (f i) (f value) =
      ((Context.of k calls).returnLinks i value).map (Prod.map f f) := by
  unfold Context.returnLinks
  rw [Context.of_graph, Context.of_graph, r.enclosingFunction? (hk.bounded i)]
  cases k.enclosingFunction? i with
  | none => rfl
  | some j =>
    dsimp only [Option.map_some]
    rw [r.kind]
    cases k.kind j <;> rfl

theorem parentLinks (i p : Id) : (Context.of g (calls.map f)).parentLinks (f i) (f p) =
    ((Context.of k calls).parentLinks i p).map (Prod.map f f) := by
  unfold Context.parentLinks
  rw [Context.of_graph, Context.of_graph, r.kind]
  cases k.kind p with
  | declarator name init => cases init <;> rfl
  | call callee args =>
    simp only [Kind.map, r.eq_iff, Context.of_calls, CallTable.target?_map r.inj]
    split_ifs
    · rfl
    · rcases calls.target? p with _ | ⟨j⟩ | ⟨e⟩
      · rfl
      · exact r.functionLinks hk calls j
      · rfl
  | function name params body => exact r.functionLinks hk calls p
  | ret value =>
    cases value with
    | none => rfl
    | some value => exact r.returnLinks hk calls p value
  | conditional test consequent alternate =>
    simp only [Kind.map, r.eq_iff]
    split_ifs
    · rfl
    · exact r.formLinks calls p
  | binary | assign | unary | update => exact r.formLinks calls p
  | _ => rfl

/-- **The pairs of a node of a copy.** -/
theorem links (i : Id) : (Context.of g (calls.map f)).links (f i) =
    ((Context.of k calls).links i).map (Prod.map f f) := by
  unfold Context.links
  rw [r.formLinks, Context.of_graph, Context.of_graph, r.parent?, List.map_append]
  refine congrArg (List.append _) ?_
  cases k.parent? i with
  | none => rfl
  | some p => exact r.parentLinks hk calls i p

/-! ## Evidence -/

omit hk in
theorem arrayEvidence (i : Id) : (Context.of g (calls.map f)).arrayEvidence (f i) =
    ((Context.of k calls).arrayEvidence i).map (Evidence.map f) := by
  unfold Context.arrayEvidence
  rw [Context.of_graph, Context.of_graph, r.kind]
  cases k.kind i with
  | array elements =>
    simp only [Kind.map, List.length_map, List.map_map]
    cases Ty.vec? elements.length with
    | none => rfl
    | some t =>
      simp only [List.map_cons, List.map_map]
      rfl
  | _ => rfl

omit hk in
theorem callEvidence (i : Id) : (Context.of g (calls.map f)).callEvidence (f i) =
    ((Context.of k calls).callEvidence i).map (Evidence.map f) := by
  unfold Context.callEvidence
  rw [Context.of_graph, Context.of_graph, Context.of_calls, Context.of_calls,
    CallTable.known?_map r.inj, r.kind]
  cases calls.known? i with
  | none => rfl
  | some e =>
    cases k.kind i with
    | call callee args =>
      simp only [Kind.map, List.length_map, List.map_cons]
      split_ifs
      · rw [List.zip_map_left, List.map_map, List.map_map]
        rfl
      · rfl
    | _ => rfl

omit hk in
theorem indexEvidence (i : Id) : (Context.of g (calls.map f)).indexEvidence (f i) =
    ((Context.of k calls).indexEvidence i).map (Evidence.map f) := by
  unfold Context.indexEvidence
  rw [Context.of_graph, Context.of_graph, r.kind]
  cases k.kind i with
  | index object property =>
    simp only [Kind.map, r.literalIndex?]
    cases k.literalIndex? property <;> rfl
  | _ => rfl

/-- **The evidence of a copy.** -/
theorem evidence : (Context.of g (calls.map f)).evidence =
    (Context.of k calls).evidence.map (Evidence.map f) := by
  unfold Context.evidence
  simp only [Context.of_order, r.live (hk.bounded _), List.flatMap_map, r.arrayEvidence,
    r.callEvidence, r.indexEvidence, List.map_append, List.map_flatMap]

/-! ## Rules of last resort -/

variable (rx : Copy True f x y)

include rx

theorem topIndex? (i : Id) : (Context.of g (calls.map f)).topIndex? y (f i) =
    (Context.of k calls).topIndex? x i := by
  unfold Context.topIndex?
  rw [r.occurrences hk, List.filterMap_map]
  exact congrArg List.max? (List.filterMap_congr fun o _ => (rx.node o).topIndex)

theorem untyped : (Context.of g (calls.map f)).untyped y =
    ((Context.of k calls).untyped x).map f := by
  unfold Context.untyped
  rw [Context.of_order, Context.of_order, r.live (hk.bounded _), List.filter_map]
  refine congrArg (List.map f) (List.filter_congr fun i _ => ?_)
  rw [Function.comp_apply, rx.ty?]

theorem widening? : (Context.of g (calls.map f)).widening? y =
    ((Context.of k calls).widening? x).map (Fallback.map f) := by
  have hpairs : ((Context.of g (calls.map f)).untyped y).filterMap (fun i =>
        ((Context.of g (calls.map f)).topIndex? y i).map fun n => (i, n)) =
      (((Context.of k calls).untyped x).filterMap fun i =>
        ((Context.of k calls).topIndex? x i).map fun n => (i, n)).map (Prod.map f id) := by
    rw [r.untyped hk calls rx, List.filterMap_map, List.map_filterMap]
    refine List.filterMap_congr fun i _ => ?_
    rw [Function.comp_apply, r.topIndex? hk calls rx, Option.map_map]
    rfl
  unfold Context.widening?
  rw [hpairs, Context.firstLargest_map, Option.map_map, Option.map_map]
  rfl

theorem hinting? : (Context.of g (calls.map f)).hinting? y =
    ((Context.of k calls).hinting? x).map (Fallback.map f) := by
  unfold Context.hinting?
  rw [r.untyped hk calls rx, List.findSome?_map, List.map_findSome?]
  refine congrArg (List.findSome? · _) (funext fun i => ?_)
  rw [Function.comp_apply, Function.comp_apply, (rx.node i).hint, Option.map_map]
  rfl

omit hk rx in
theorem isCallee (i : Id) : (Context.of g (calls.map f)).isCallee (f i) =
    (Context.of k calls).isCallee i := by
  unfold Context.isCallee
  rw [Context.of_graph, Context.of_graph, r.parent?]
  cases k.parent? i with
  | none => rfl
  | some p =>
    dsimp only [Option.map_some]
    rw [r.kind]
    cases k.kind p with
    | call callee args =>
      simp only [Kind.map]
      rw [Bool.eq_iff_iff, beq_iff_eq, beq_iff_eq, r.eq_iff]
    | _ => rfl

omit hk rx in
theorem needsType (i : Id) : (Context.of g (calls.map f)).needsType (f i) =
    (Context.of k calls).needsType i := by
  have ne : ∀ j, (f j != f i) = (j != i) := fun j => by
    rw [Bool.eq_iff_iff, bne_iff_ne, bne_iff_ne, r.inj.ne_iff]
  unfold Context.needsType
  rw [Context.of_graph, Context.of_graph, r.isOccurrence, r.parent?]
  refine congrArg (k.isOccurrence i && ·) ?_
  cases k.parent? i with
  | none => rfl
  | some p =>
    dsimp only [Option.map_some]
    rw [r.kind]
    cases k.kind p with
    | function name params body => exact ne name
    | field object property => simp only [Kind.map, ne, r.isCallee]
    | _ => rfl

theorem guessing? : (Context.of g (calls.map f)).guessing? y =
    ((Context.of k calls).guessing? x).map (Fallback.map f) := by
  unfold Context.guessing?
  rw [r.untyped hk calls rx, List.find?_map, show (Context.of g (calls.map f)).needsType ∘ f =
    (Context.of k calls).needsType from funext (r.needsType calls), Option.map_map, Option.map_map]
  refine congrArg (Option.map · _) (funext fun i => ?_)
  rw [Function.comp_apply, r.topIndex? hk calls rx]
  rfl

/-- **The rule of last resort that applies next in a copy.** -/
theorem fallback? : (Context.of g (calls.map f)).fallback? y =
    ((Context.of k calls).fallback? x).map (Fallback.map f) := by
  unfold Context.fallback?
  rw [r.widening? hk calls rx, r.hinting? hk calls rx, r.guessing? hk calls rx, Option.map_or,
    Option.map_or]

end Graph.Copy

/-! ## Two computations -/

namespace Infer

open Solver

/-- Started in `s` and `s'`, two computations end well in states with `R`, or fail with one
error. -/
def Solver.Both (m m' : Solver Unit) (s s' : State) (R : State → State → Prop) : Prop :=
  match m.run.run s, m'.run.run s' with
  | (.ok _, t), (.ok _, t') => R t t'
  | (.error e, _), (.error e', _) => e = e'
  | _, _ => False

namespace Solver

variable {s s' t t' : State} {R Q : State → State → Prop} {m m' : Solver Unit}

theorem both_pure (h : R s s') : Both (pure ()) (pure ()) s s' R := h

theorem both_throw {e e' : Error} (h : e = e') : Both (throw e) (throw e') s s' R := h

theorem both_get_bind {p p' : State → Solver Unit} (h : Both (p s) (p' s') s s' R) :
    Both (get >>= p) (get >>= p') s s' R := h

theorem both_get_right {p' : State → Solver Unit} (h : Both m (p' s') s s' R) :
    Both m (get >>= p') s s' R := h

theorem both_set (h : R t t') : Both (set t) (set t') s s' R := h

theorem both_modify {u u' : State → State} (h : R (u s) (u' s')) :
    Both (modify u) (modify u') s s' R := h

theorem Both.bind {p p' : Unit → Solver Unit} (hm : Both m m' s s' R)
    (hp : ∀ t t', R t t' → Both (p ()) (p' ()) t t' Q) : Both (m >>= p) (m' >>= p') s s' Q := by
  unfold Both at hm ⊢
  rw [run_run_bind, run_run_bind]
  rcases hr : m.run.run s with ⟨e | a, t⟩ <;> rcases hr' : m'.run.run s' with ⟨e' | a', t'⟩ <;>
    rw [hr, hr'] at hm
  · exact hm
  · exact hm.elim
  · exact hm.elim
  · exact hp t t' hm

theorem Both.mono (hm : Both m m' s s' R) (hRQ : ∀ t t', R t t' → Q t t') : Both m m' s s' Q := by
  unfold Both at hm ⊢
  rcases hr : m.run.run s with ⟨e | a, t⟩ <;> rcases hr' : m'.run.run s' with ⟨e' | a', t'⟩ <;>
    rw [hr, hr'] at hm
  · exact hm
  · exact hm.elim
  · exact hm.elim
  · exact hRQ t t' hm

/-- What holds when the first of the computations ends well holds when both do. -/
theorem Both.and_ends {P : State → Prop} {E : Error → Prop} (hm : Both m m' s s' R)
    (he : Ends m s (fun _ => P) E) : Both m m' s s' fun t t' => R t t' ∧ P t := by
  unfold Both at hm ⊢
  unfold Ends at he
  rcases hr : m.run.run s with ⟨e | a, t⟩ <;> rcases hr' : m'.run.run s' with ⟨e' | a', t'⟩ <;>
    rw [hr, hr'] at hm
  · exact hm
  · exact hm.elim
  · exact hm.elim
  · rw [hr] at he
    exact ⟨hm, he⟩

theorem both_forM {α β : Type} {p : α → Solver Unit} {p' : β → Solver Unit} (h : α → β)
    {xs : List α} (hstep : ∀ a ∈ xs, ∀ s s', R s s' → Both (p a) (p' (h a)) s s' R)
    (hs : R s s') : Both (xs.forM p) ((xs.map h).forM p') s s' R := by
  induction xs generalizing s s' with
  | nil => exact both_pure hs
  | cons a xs ih =>
    rw [List.map_cons, List.forM_eq_forM, List.forM_eq_forM, List.forM_cons, List.forM_cons]
    refine (hstep a List.mem_cons_self s s' hs).bind fun t t' ht => ?_
    exact ih (fun b hb => hstep b (List.mem_cons_of_mem _ hb)) ht

end Solver

/-! ## Inference in a copy -/

/-- The second state is one of inference in a copy of the program `k` where the first is one of
inference in the program itself. -/
structure State.Copy (k : Graph) (f : Id → Id) (s s' : State) : Prop where
  attached : Attached k s
  graph : Graph.Copy True f s.graph s'.graph
  pending : s'.pending = s.pending.map f

namespace State.Copy

variable {f : Id → Id} {k g : Graph} {s s' : State}

theorem render (h : State.Copy k f s s') (hk : k.Whole) (i : Id) :
    s'.graph.render (f i) = s.graph.render i :=
  h.graph.render ((hk.renamed h.attached.renamed_of_eq).bounded i)

theorem note (h : State.Copy k f s s') (n n' : Note) :
    State.Copy k f { s with notes := s.notes.push n } { s' with notes := s'.notes.push n' } :=
  ⟨h.attached, h.graph, h.pending⟩

variable (r : Graph.Copy True f k g) (hk : k.Whole) (calls : CallTable) (h : State.Copy k f s s')

include hk h

theorem assignNode (t : Ty) (b : Bool) (i : Id) :
    Both (assignNode t b i) (assignNode t b (f i)) s s' (State.Copy k f) := by
  unfold Infer.assignNode
  apply both_get_bind
  rw [h.graph.ty?]
  cases s.graph.ty? i with
  | some found =>
    dsimp only
    split_ifs
    · exact both_pure h
    · refine both_throw ?_
      unfold contradiction
      rw [h.render hk]
  | none =>
    refine both_set ⟨h.attached.modify (fun _ => rfl) fun _ => rfl, ?_, ?_⟩
    · exact h.graph.modify i fun _ _ hn => { hn with ty := rfl, guessed := rfl }
    · exact congrArg (f i :: ·) h.pending

include r

theorem assign (i : Id) (t : Ty) (b : Bool) :
    Both (assign (.of k calls) i t b) (assign (.of g (calls.map f)) (f i) t b) s s'
      (State.Copy k f) := by
  unfold Infer.assign
  rw [r.occurrences hk]
  exact both_forM f (fun j _ t t' ht => ht.assignNode hk _ b j) h

theorem share (p : Id × Id) :
    Both (share (.of k calls) p) (share (.of g (calls.map f)) (Prod.map f f p)) s s'
      (State.Copy k f) := by
  unfold Infer.share
  apply both_get_bind
  simp only [Prod.map_fst, Prod.map_snd, h.graph.ty?, (h.graph.node _).guessed]
  cases s.graph.ty? p.1 with
  | some t =>
    cases s.graph.ty? p.2 with
    | some u =>
      dsimp only
      split_ifs
      · exact both_pure h
      · refine both_throw ?_
        unfold contradiction
        rw [h.render hk]
    | none => exact h.assign r hk calls ..
  | none =>
    cases s.graph.ty? p.2 with
    | some u => exact h.assign r hk calls ..
    | none => exact both_pure h

theorem take (e : Evidence) :
    Both (e.take (.of k calls)) ((e.map f).take (.of g (calls.map f))) s s' (State.Copy k f) := by
  cases e with
  | hasType i t => exact h.assign r hk calls i t false
  | indexedAt i n =>
    refine both_modify ⟨h.attached.modify (fun _ => rfl) fun _ => rfl, ?_, h.pending⟩
    refine h.graph.modify i fun x y hxy => ?_
    exact { hxy with topIndex := by rw [hxy.topIndex] }
  | notAVector i length =>
    refine both_get_bind (both_throw ?_)
    rw [h.render hk]
  | wrongArity e n => exact both_throw rfl

/-- Spreading types comes to rest in both, and is given as many steps as it takes. -/
theorem drainUpTo {n m : Nat} (hn : s.work ≤ n) (hm : n ≤ m) :
    Both (drainUpTo (.of k calls) n) (drainUpTo (.of g (calls.map f)) m) s s'
      fun t t' => State.Copy k f t t' ∧ t.pending = [] ∧ t.untyped ≤ s.untyped := by
  induction n generalizing m s s' with
  | zero =>
    have hp : s.pending = [] := by
      unfold State.work at hn
      exact List.eq_nil_of_length_eq_zero (by omega)
    have hp' : s'.pending = [] := by rw [h.pending, hp]; rfl
    cases m with
    | zero => exact both_pure ⟨h, hp, le_rfl⟩
    | succ m =>
      refine both_get_right ?_
      rw [h.pending, hp]
      exact both_pure ⟨h, hp, le_rfl⟩
  | succ n ih =>
    obtain ⟨m, rfl⟩ := Nat.exists_eq_add_of_le' (Nat.one_le_of_lt hm)
    unfold Infer.drainUpTo
    apply both_get_bind
    rw [h.pending]
    cases hp : s.pending with
    | nil => exact both_pure ⟨h, hp, le_rfl⟩
    | cons i rest =>
      dsimp only [List.map_cons]
      have h₀ : State.Copy k f { s with pending := rest } { s' with pending := rest.map f } :=
        ⟨h.attached, h.graph, rfl⟩
      have hwork : ({ s with pending := rest } : State).work + 1 = s.work := by
        unfold State.work
        rw [hp, List.length_cons, Nat.add_right_comm]
        rfl
      refine (both_set (R := fun t t' => t = _ ∧ t' = _) ⟨rfl, rfl⟩).bind ?_
      rintro _ _ ⟨rfl, rfl⟩
      have hlinks : Both (((Context.of k calls).links i).forM (Infer.share (.of k calls)))
          (((Context.of g (calls.map f)).links (f i)).forM (Infer.share (.of g (calls.map f))))
          { s with pending := rest } { s' with pending := rest.map f } (State.Copy k f) := by
        rw [r.links hk]
        exact both_forM (Prod.map f f) (fun p _ t t' ht => ht.share r hk calls p) h₀
      refine (hlinks.and_ends (Onward.links hk.inRange h₀.attached i)).bind ?_
      rintro t t' ⟨ht, -, hgrow⟩
      refine (ih ht (by rw [hgrow.work]; omega) (Nat.le_of_succ_le_succ hm)).mono ?_
      rintro u u' ⟨hu, hnil, hle⟩
      exact ⟨hu, hnil, hle.trans hgrow.untyped_le⟩

theorem drain (hn : s.work ≤ k.size) :
    Both (drain (.of k calls)) (drain (.of g (calls.map f))) s s'
      fun t t' => State.Copy k f t t' ∧ t.pending = [] ∧ t.untyped ≤ s.untyped :=
  h.drainUpTo r hk calls hn r.size_le

theorem apply (l : Fallback) :
    Both (l.apply (.of k calls)) ((l.map f).apply (.of g (calls.map f))) s s'
      (State.Copy k f) := by
  have note_assign : ∀ (n n' : Note) (i : Id) (t : Ty) (b : Bool),
      Both (do Infer.note n; Infer.assign (.of k calls) i t b)
        (do Infer.note n'; Infer.assign (.of g (calls.map f)) (f i) t b) s s'
        (State.Copy k f) := fun n n' i t b =>
    (both_modify (h.note n n')).bind fun _ _ ht => ht.assign r hk calls i t b
  cases l with
  | widen i n =>
    refine both_get_bind ?_
    dsimp only
    cases Ty.forIndex? n with
    | none =>
      refine both_throw ?_
      rw [h.render hk]
    | some t => exact note_assign ..
  | hint i t => exact both_get_bind (note_assign ..)
  | guess i t => exact both_get_bind (note_assign ..)

theorem settle {n m : Nat} (hwork : s.work ≤ k.size) (hn : s.untyped ≤ n) (hm : n ≤ m) :
    Both (settle (.of k calls) n) (settle (.of g (calls.map f)) m) s s' (State.Copy k f) := by
  induction n generalizing m s s' with
  | zero =>
    have hdrain := h.drain r hk calls hwork
    cases m with
    | zero => exact hdrain.mono fun _ _ ht => ht.1
    | succ m =>
      unfold Infer.settle
      rw [← bind_pure (Infer.drain (.of k calls))]
      refine hdrain.bind ?_
      rintro t t' ⟨ht, -, hle⟩
      refine both_get_right ?_
      have hlt : ∀ i ∈ (Context.of k calls).order, i < t.graph.size := fun i hi =>
        ht.attached.size ▸ hk.inRange.lt_size hi
      rw [r.fallback? hk calls ht.graph, fallback?_eq_none hlt (by omega)]
      exact both_pure ht
  | succ n ih =>
    obtain ⟨m, rfl⟩ := Nat.exists_eq_add_of_le' (Nat.one_le_of_lt hm)
    unfold Infer.settle
    refine (h.drain r hk calls hwork).bind ?_
    rintro t t' ⟨ht, hnil, hle⟩
    apply both_get_bind
    rw [r.fallback? hk calls ht.graph]
    cases hl : (Context.of k calls).fallback? t.graph with
    | none => exact both_pure ht
    | some l =>
      refine ((ht.apply r hk calls l).and_ends (Onward.apply hk.inRange ht.attached hl)).bind ?_
      rintro u u' ⟨hu, ⟨-, hgrow⟩, hlt⟩
      have hwork' : u.work ≤ k.size := by
        rw [hgrow.work, State.work, hnil, List.length_nil, Nat.zero_add, ← ht.attached.size]
        exact State.untyped_le_size
      exact ih hu hwork' (by omega) (Nat.le_of_succ_le_succ hm)

end State.Copy

theorem State.Copy.start {f : Id → Id} {k g : Graph} (r : Graph.Copy True f k g) :
    State.Copy k f { graph := k } { graph := g } :=
  ⟨.refl (fun _ => rfl) k, r, rfl⟩

/-- **Inference in a copy ends as it does in the original.** -/
theorem both_solve {f : Id → Id} {k g : Graph} (r : Graph.Copy True f k g) (hk : k.Whole)
    (calls : CallTable) : Both (solve (.of k calls)) (solve (.of g (calls.map f)))
      { graph := k } { graph := g } (State.Copy k f) := by
  have hseed : Both (seed (.of k calls)) (seed (.of g (calls.map f))) { graph := k } { graph := g }
      fun s s' => State.Copy k f s s' ∧ s.work ≤ k.size := by
    unfold seed
    rw [r.evidence hk]
    refine both_forM (Evidence.map f) (fun e he s s' hs => ?_) ⟨.start r, ?_⟩
    · refine ((hs.1.take r hk calls e).and_ends (Onward.take hk.inRange hs.1.attached he)).mono ?_
      rintro t t' ⟨ht, ⟨-, hwork⟩, -⟩
      exact ⟨ht, hwork.trans_le hs.2⟩
    · exact (Nat.zero_add _).trans_le State.untyped_le_size
  refine hseed.bind ?_
  rintro s s' ⟨hs, hwork⟩
  refine hs.settle r hk calls hwork ?_ r.size_le
  exact State.untyped_le_size.trans hs.attached.size.le

end Infer

/-- **Inference in a copy** finds the same types or fails with the same error. -/
theorem Graph.Copy.infer {f : Id → Id} {k g : Graph} (r : Copy True f k g) (hk : k.Whole)
    (calls : CallTable) : (infer g (calls.map f)).failure = (infer k calls).failure ∧
      ((infer k calls).failure = none →
        Copy True f (infer k calls).graph (infer g (calls.map f)).graph) := by
  have hboth := Infer.both_solve r hk calls
  unfold ShaderScript.infer
  unfold Infer.Solver.Both at hboth
  rcases hr : (Infer.solve (.of k calls)).run.run { graph := k } with ⟨e | a, t⟩ <;>
    rcases hr' : (Infer.solve (.of g (calls.map f))).run.run { graph := g } with ⟨e' | a', t'⟩ <;>
    rw [hr, hr'] at hboth
  · exact ⟨congrArg some hboth.symm, nofun⟩
  · exact hboth.elim
  · exact hboth.elim
  · exact ⟨rfl, fun _ => hboth.graph⟩

end ShaderScript
