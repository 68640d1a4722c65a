import ShaderScript.Proofs.Infer.Solving

/-!
# Taking in the evidence

Inference starts by taking in what the program says about single nodes. Afterwards every node that
has evidence has its type, every literal position is noted, and nothing else has happened.

* `Context.hasType_mem_evidence`, `Context.indexedAt_mem_evidence`: the evidence is what the
  reference calls seeds and positions.
* `Gathered`: what taking in the evidence leaves behind.
* **`ends_seed`**: the evidence is gathered, or an error says why it cannot be.
-/

namespace ShaderScript.Infer

namespace Context

variable {c : Context} {i : Id}

/-! ## Evidence and seeds -/

theorem mem_evidence {e : Evidence} : e ∈ c.evidence ↔
    ∃ i ∈ c.order, e ∈ c.arrayEvidence i ∨ e ∈ c.callEvidence i ∨ e ∈ c.indexEvidence i := by
  unfold evidence
  simp only [List.mem_append, List.mem_flatMap]
  constructor
  · rintro ((⟨i, hi, he⟩ | ⟨i, hi, he⟩) | ⟨i, hi, he⟩)
    · exact ⟨i, hi, .inl he⟩
    · exact ⟨i, hi, .inr (.inl he)⟩
    · exact ⟨i, hi, .inr (.inr he)⟩
  · rintro ⟨i, hi, he | he | he⟩
    · exact .inl (.inl ⟨i, hi, he⟩)
    · exact .inl (.inr ⟨i, hi, he⟩)
    · exact .inr ⟨i, hi, he⟩

theorem mem_arrayEvidence {e : Evidence} : e ∈ c.arrayEvidence i ↔
    ∃ es, c.graph.kind i = .array es ∧
      ((∃ t, Ty.vec? es.length = some t ∧ (e = .hasType i t ∨ ∃ a ∈ es, e = .hasType a .float)) ∨
        Ty.vec? es.length = none ∧ e = .notAVector i es.length) := by
  unfold arrayEvidence
  constructor
  · intro he
    split at he
    case h_2 => cases he
    case h_1 es hk =>
      refine ⟨es, hk, ?_⟩
      split at he
      case h_1 t ht =>
        refine .inl ⟨t, ht, ?_⟩
        rcases List.mem_cons.mp he with rfl | he
        · exact .inl rfl
        · obtain ⟨a, ha, rfl⟩ := List.mem_map.mp he
          exact .inr ⟨a, ha, rfl⟩
      case h_2 hn => exact .inr ⟨hn, List.mem_singleton.mp he⟩
  · rintro ⟨es, hk, ⟨t, ht, rfl | ⟨a, ha, rfl⟩⟩ | ⟨hn, rfl⟩⟩
    · simp [hk, ht]
    · simp [hk, ht, ha]
    · simp [hk, hn]

theorem mem_callEvidence {e : Evidence} : e ∈ c.callEvidence i ↔
    ∃ k callee args, c.calls.known? i = some k ∧ c.graph.kind i = .call callee args ∧
      (e = .hasType i k.ret ∨
        args.length = k.arity ∧ (∃ a t, (a, t) ∈ args.zip k.params ∧ e = .hasType a t) ∨
        args.length ≠ k.arity ∧ e = .wrongArity k args.length) := by
  unfold callEvidence
  constructor
  · intro he
    split at he
    case h_2 => cases he
    case h_1 k callee args hknown hk =>
      refine ⟨k, callee, args, hknown, hk, ?_⟩
      rcases List.mem_cons.mp he with rfl | he
      · exact .inl rfl
      · split_ifs at he with hlen
        · obtain ⟨⟨a, t⟩, hat, rfl⟩ := List.mem_map.mp he
          exact .inr (.inl ⟨hlen, a, t, hat, rfl⟩)
        · exact .inr (.inr ⟨hlen, List.mem_singleton.mp he⟩)
  · rintro ⟨k, callee, args, hknown, hk, rfl | ⟨hlen, a, t, hat, rfl⟩ | ⟨hlen, rfl⟩⟩
    · simp [hknown, hk]
    · rw [hknown, hk]
      refine List.mem_cons_of_mem _ ?_
      rw [if_pos hlen]
      exact List.mem_map.mpr ⟨(a, t), hat, rfl⟩
    · simp [hknown, hk, hlen]

theorem mem_indexEvidence {e : Evidence} : e ∈ c.indexEvidence i ↔
    ∃ object position, c.graph.kind i = .index object position ∧
      (e = .hasType position .int ∨ e = .hasType i .float ∨
        ∃ k, c.graph.literalIndex? position = some k ∧ e = .indexedAt object k) := by
  unfold indexEvidence
  constructor
  · intro he
    split at he
    case h_2 => cases he
    case h_1 object position hk =>
      refine ⟨object, position, hk, ?_⟩
      rcases List.mem_cons.mp he with rfl | he
      · exact .inl rfl
      rcases List.mem_cons.mp he with rfl | he
      · exact .inr (.inl rfl)
      obtain ⟨k, hlit, rfl⟩ := Option.map_eq_some_iff.mp (Option.mem_toList.mp he)
      exact .inr (.inr ⟨k, hlit, rfl⟩)
  · rintro ⟨object, position, hk, rfl | rfl | ⟨k, hlit, rfl⟩⟩
    · simp [hk]
    · simp [hk]
    · simp [hk, hlit]

/-- **The types that evidence gives are the seeds.** -/
theorem hasType_mem_evidence {t : Ty} : .hasType i t ∈ c.evidence ↔ c.Seed i t := by
  simp only [mem_evidence, mem_arrayEvidence, mem_callEvidence, mem_indexEvidence]
  constructor
  · rintro ⟨j, hj, ⟨es, hk, ⟨u, hu, he | ⟨a, ha, he⟩⟩ | ⟨-, he⟩⟩ |
      ⟨k, callee, args, hknown, hk, he | ⟨hlen, a, u, hau, he⟩ | ⟨-, he⟩⟩ |
      ⟨object, position, hk, he | he | ⟨k, -, he⟩⟩⟩ <;> cases he
    · exact .array hj hk hu
    · exact .element hj hk hu ha
    · exact .call hj hknown hk
    · exact .argument hj hknown hk hlen hau
    · exact .position hj hk
    · exact .access hj hk
  · intro hs
    cases hs with
    | array hj hk ht => exact ⟨_, hj, .inl ⟨_, hk, .inl ⟨_, ht, .inl rfl⟩⟩⟩
    | element hj hk ht ha => exact ⟨_, hj, .inl ⟨_, hk, .inl ⟨_, ht, .inr ⟨_, ha, rfl⟩⟩⟩⟩
    | call hj hknown hk => exact ⟨_, hj, .inr (.inl ⟨_, _, _, hknown, hk, .inl rfl⟩)⟩
    | argument hj hknown hk hlen hat =>
      exact ⟨_, hj, .inr (.inl ⟨_, _, _, hknown, hk, .inr (.inl ⟨hlen, _, _, hat, rfl⟩)⟩)⟩
    | access hj hk => exact ⟨_, hj, .inr (.inr ⟨_, _, hk, .inr (.inl rfl)⟩)⟩
    | position hj hk => exact ⟨_, hj, .inr (.inr ⟨_, _, hk, .inl rfl⟩)⟩

/-- **The positions that evidence notes are the literal positions.** -/
theorem indexedAt_mem_evidence {k : Nat} : .indexedAt i k ∈ c.evidence ↔ c.IndexedAt i k := by
  simp only [mem_evidence, mem_arrayEvidence, mem_callEvidence, mem_indexEvidence]
  constructor
  · rintro ⟨j, hj, ⟨es, hk, ⟨u, hu, he | ⟨a, ha, he⟩⟩ | ⟨-, he⟩⟩ |
      ⟨k', callee, args, hknown, hk, he | ⟨hlen, a, u, hau, he⟩ | ⟨-, he⟩⟩ |
      ⟨object, position, hk, he | he | ⟨k', hlit, he⟩⟩⟩ <;> cases he
    exact ⟨j, hj, position, hk, hlit⟩
  · rintro ⟨j, hj, position, hk, hlit⟩
    exact ⟨j, hj, .inr (.inr ⟨i, position, hk, .inr (.inr ⟨k, hlit, rfl⟩)⟩)⟩

end Context

/-! ## The loop -/

section Loop

open Solver

variable {g : Graph} (tree : g.IsTree) (h : g.Inferable)

include tree in
theorem Context.Seed.live {i : Id} {t : Ty} (hs : g.context.Seed i t) : i ∈ g.live := by
  cases hs with
  | array hi | call hi | access hi => exact hi
  | element hi hk _ ha =>
    exact tree.child_live hi (by rw [Graph.children, show g.kind _ = _ from hk]; exact ha)
  | argument hi _ hk _ hz =>
    refine tree.child_live hi ?_
    rw [Graph.children, show g.kind _ = _ from hk]
    exact List.mem_cons_of_mem _ (List.of_mem_zip hz).1
  | position hi hk =>
    refine tree.child_live hi ?_
    rw [Graph.children, show g.kind _ = _ from hk]
    exact List.mem_cons_of_mem _ List.mem_cons_self

include tree in
theorem Context.IndexedAt.live {i : Id} {k : Nat} (hx : g.context.IndexedAt i k) : i ∈ g.live := by
  obtain ⟨j, hj, position, hk, -⟩ := hx
  refine tree.child_live hj ?_
  rw [Graph.children, show g.kind _ = _ from hk]
  exact List.mem_cons_self

/-- The positions noted on nodes are literal positions at which they are indexed. -/
def Noted (g : Graph) (s : State) : Prop :=
  ∀ i ∈ g.live, ∀ m, (s.graph.node i).topIndex = some m → g.context.IndexedAt i m

/-- What taking in the evidence leaves behind: seeds have their types, and every node that is
indexed at literal positions has the largest of them noted. -/
structure Gathered (g : Graph) (s : State) : Prop where
  seed : ∀ {i t}, g.context.Seed i t → s.graph.ty? i = some t
  hint : ∀ i, (s.graph.node i).hint = (g.node i).hint
  top_le : ∀ {i k}, g.context.IndexedAt i k → ∃ m, k ≤ m ∧ (s.graph.node i).topIndex = some m
  noted : Noted g s

theorem Gathered.keeps {s s' : State} (hg : Gathered g s) (hk : Keeps s s') : Gathered g s' where
  seed hs := hk.ty (hg.seed hs)
  hint i := (hk.hint i).trans (hg.hint i)
  top_le hx := by
    rw [hk.topIndex]
    exact hg.top_le hx
  noted i hi m hm := hg.noted i hi m (by rw [← hk.topIndex, hm])

/-- What taking in one piece of evidence may change. -/
structure Gathers (s s' : State) : Prop where
  ty : ∀ {i t}, s.graph.ty? i = some t → s'.graph.ty? i = some t
  top : ∀ {i m}, (s.graph.node i).topIndex = some m →
    ∃ m', m ≤ m' ∧ (s'.graph.node i).topIndex = some m'

theorem Gathers.trans {s s' s'' : State} (h : Gathers s s') (h' : Gathers s' s'') :
    Gathers s s'' where
  ty ht := h'.ty (h.ty ht)
  top hm := by
    obtain ⟨m', hle, hm'⟩ := h.top hm
    obtain ⟨m'', hle', hm''⟩ := h'.top hm'
    exact ⟨m'', hle.trans hle', hm''⟩

/-- What holds once a piece of evidence has been taken in. -/
def Taken (e : Evidence) (s : State) : Prop :=
  match e with
  | .hasType i t => s.graph.ty? i = some t
  | .indexedAt i k => ∃ m, k ≤ m ∧ (s.graph.node i).topIndex = some m
  | _ => True

theorem Taken.gathers {e : Evidence} {s s' : State} (h : Gathers s s') (ht : Taken e s) :
    Taken e s' := by
  cases e with
  | hasType i t => exact h.ty ht
  | indexedAt i k =>
    obtain ⟨m, hle, hm⟩ := ht
    obtain ⟨m', hle', hm'⟩ := h.top hm
    exact ⟨m', hle.trans hle', hm'⟩
  | notAVector | wrongArity => trivial

/-- The invariant while evidence is taken in: all nodes with a type are pending. -/
structure Gathering (g : Graph) (s : State) : Prop where
  sound : Sound g.context s
  typed : ∀ i ∈ g.live, s.graph.ty? i ≠ none → i ∈ s.pending
  hint : ∀ i, (s.graph.node i).hint = (g.node i).hint
  noted : Noted g s
  work : s.work ≤ g.size

theorem Gathering.grows {s s' : State} (hg : Gathering g s) (hs : Sound g.context s')
    (hgrow : Grows s s') : Gathering g s' where
  sound := hs
  typed i hi ht := by
    by_cases hn : s.graph.ty? i = none
    · exact hgrow.fresh i hn ht
    · exact hgrow.pending i (hg.typed i hi hn)
  hint i := (hgrow.hint i).trans (hg.hint i)
  noted i hi m hm := hg.noted i hi m (by rw [← hgrow.topIndex, hm])
  work := by
    rw [hgrow.work]
    exact hg.work

/-- The state after a position has been noted. -/
def State.observe (s : State) (i : Id) (k : Nat) : State :=
  { s with graph := s.graph.modify i fun n =>
      { n with topIndex := some (max (n.topIndex.getD k) k) } }

theorem State.ty?_observe (s : State) (i j : Id) (k : Nat) :
    (s.observe i k).graph.ty? j = s.graph.ty? j := by
  refine Graph.node_modify_congr s.graph _ Node.ty ?_ i j
  exact fun _ => rfl

theorem State.topIndex_observe_self (s : State) {i : Id} (k : Nat) (hi : i < s.graph.size) :
    ((s.observe i k).graph.node i).topIndex =
      some (max ((s.graph.node i).topIndex.getD k) k) := by
  unfold State.observe
  rw [Graph.node_modify_self _ _ hi]

theorem State.topIndex_observe_of_ne (s : State) {i j : Id} (k : Nat) (hij : i ≠ j) :
    ((s.observe i k).graph.node j).topIndex = (s.graph.node j).topIndex := by
  unfold State.observe
  rw [Graph.node_modify_of_ne _ _ hij]

theorem State.untyped_observe (s : State) (i : Id) (k : Nat) :
    (s.observe i k).untyped = s.untyped := by
  have hsize : (s.observe i k).graph.size = s.graph.size := Graph.size_modify _ _ _
  unfold State.untyped
  simp only [State.ty?_observe, hsize]

include h in
theorem Gathering.observe {s : State} {i : Id} {k : Nat} (hg : Gathering g s)
    (hx : g.context.IndexedAt i k) : Gathering g (s.observe i k) where
  sound := by
    refine ⟨(Graph.size_modify _ _ _).trans hg.sound.size, fun j hj t ht => ?_, fun j hj => ?_,
      fun j hj l hl => ?_⟩
    · rw [State.ty?_observe] at ht
      exact hg.sound.justified j hj t ht
    · rw [State.ty?_observe]
      exact hg.sound.pending j hj
    · rw [State.ty?_observe, State.ty?_observe]
      exact hg.sound.uniform j hj l hl
  typed j hj ht := hg.typed j hj (by rwa [State.ty?_observe] at ht)
  hint j := by
    refine Eq.trans (Graph.node_modify_congr s.graph _ Node.hint ?_ i j) (hg.hint j)
    exact fun _ => rfl
  noted j hj m hm := by
    by_cases hij : i = j
    · subst hij
      rw [State.topIndex_observe_self _ _ (hg.sound.size ▸ h.tree.lt_size hj)] at hm
      obtain rfl := Option.some.inj hm
      rcases max_choice ((s.graph.node i).topIndex.getD k) k with he | he
      · rw [he]
        cases hm' : (s.graph.node i).topIndex with
        | none => exact hx
        | some m' => exact hg.noted i hj m' hm'
      · rw [he]
        exact hx
    · rw [State.topIndex_observe_of_ne _ _ hij] at hm
      exact hg.noted j hj m hm
  work := by
    have hu := State.untyped_observe s i k
    have hp : (s.observe i k).pending = s.pending := rfl
    have := hg.work
    unfold State.work at this ⊢
    rw [hu, hp]
    exact this

theorem Gathers.observe {s : State} {i : Id} {k : Nat} (hi : i < s.graph.size) :
    Gathers s (s.observe i k) where
  ty ht := by rw [State.ty?_observe, ht]
  top {j m} hm := by
    by_cases hij : i = j
    · subst hij
      rw [State.topIndex_observe_self _ _ hi, hm]
      exact ⟨max m k, le_max_left _ _, rfl⟩
    · rw [State.topIndex_observe_of_ne _ _ hij]
      exact ⟨m, le_rfl, hm⟩

include h in
theorem ends_take {e : Evidence} {s : State} (he : e ∈ g.context.evidence) (hg : Gathering g s) :
    Ends (e.take g.context) s (fun _ s' => Gathering g s' ∧ Gathers s s' ∧ Taken e s')
      g.context.Blamed := by
  cases e with
  | hasType i t =>
    have hseed := Context.hasType_mem_evidence.mp he
    refine (ends_assign h (hseed.live h.tree) hg.sound (.inl ⟨i, .refl i, hseed⟩)).mono ?_
    rintro _ s' ⟨hs', hgrow, ht⟩
    exact ⟨hg.grows hs' hgrow, ⟨hgrow.ty, fun hm => ⟨_, le_rfl, (hgrow.topIndex _).trans hm⟩⟩, ht⟩
  | indexedAt i k =>
    have hx := Context.indexedAt_mem_evidence.mp he
    have hi : i < s.graph.size := hg.sound.size ▸ h.tree.lt_size (hx.live h.tree)
    refine ends_modify ⟨hg.observe h hx, .observe hi, ?_⟩
    exact ⟨_, le_max_right _ k, State.topIndex_observe_self s k hi⟩
  | notAVector i length =>
    unfold Evidence.take
    apply ends_get_bind
    exact ends_throw trivial
  | wrongArity k found => exact ends_throw trivial

include h in
/-- **Taking in the evidence** gathers all of it, or fails for a reason that the program gives. -/
theorem ends_seed : Ends (seed g.context) { graph := g }
    (fun _ s => Sound g.context s ∧ Settled g.context s.pending s ∧ Gathered g s ∧
      s.work ≤ g.size) g.context.Blamed := by
  have fresh : ∀ i ∈ g.live, g.ty? i = none := fun i hi => (h.fresh i hi).1
  have start : Gathering g { graph := g } := by
    refine ⟨⟨rfl, fun i hi t ht => ?_, fun i hi => ?_, fun i hi j hj => ?_⟩, fun i hi ht => ?_,
      fun _ => rfl, fun i hi m hm => ?_, ?_⟩
    · rw [fresh i hi] at ht
      cases ht
    · cases hi
    · rw [fresh i hi, fresh j (Scopes.live_of_mem_occurrences hi hj)]
    · exact absurd (fresh i hi) ht
    · rw [(h.fresh i hi).2.2] at hm
      cases hm
    · change 0 + State.untyped { graph := g } ≤ g.size
      rw [Nat.zero_add]
      exact State.untyped_le_size
  unfold seed
  refine (ends_forM (I := Gathering g) (R := Gathers) (P := Taken)
    (fun s => ⟨id, fun hm => ⟨_, le_rfl, hm⟩⟩) (fun _ _ _ => Gathers.trans)
    (fun _ _ _ => Taken.gathers) (fun e he s hg => ends_take h he hg) start).mono ?_
  rintro _ s ⟨hg, -, hall⟩
  refine ⟨hg.sound, fun i hi ht hp => absurd (hg.typed i hi ht) hp, ⟨fun hs => ?_, hg.hint,
    fun hx => ?_, hg.noted⟩, hg.work⟩
  · exact hall _ (Context.hasType_mem_evidence.mpr hs)
  · exact hall _ (Context.indexedAt_mem_evidence.mpr hx)

end Loop

end ShaderScript.Infer
