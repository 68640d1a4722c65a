import ShaderScript.Proofs.Infer.Budget

/-!
# Room for literal positions

A literal position says how large an object has to be, but inference asks for it only where nothing
else fixes the type of the object. There, the node with the largest position is widened first, so
the type it gets has room for the positions of all other nodes without type, and it may spread to
any of them.

* `Ty.positions`: how many positions a type has.
* `Context.Fixed`: the program fixes the type of a class, by evidence or before inference.
* `Roomy`: a type has room for whatever has no type yet.
* `Accounted`: every type is there for a reason, with `ends_assign_accounted` for what assigning
  keeps.
* `Suits`: the reason that the whole of inference keeps, with one lemma for each operation.
* **`exists_room_infer`**: an object whose type nothing fixes has room for its literal positions.
-/

namespace ShaderScript

namespace Ty

/-- The number of positions at which a type can be indexed: the components of a vector, or the
entries of a matrix. -/
def positions : Ty → Nat
  | vec2 => 2
  | vec3 => 3
  | vec4 | mat2 => 4
  | mat3 => 9
  | mat4 => 16
  | float | int | sampler2D => 0

theorem lt_positions_of_forIndex? {k : Nat} {t : Ty} (h : forIndex? k = some t) :
    k < t.positions := by
  unfold forIndex? at h
  split_ifs at h <;> cases h <;> simp only [positions] <;> omega

theorem column_lt {k n : Nat} {t : Ty} (hk : k < t.positions) (hn : t.dimension? = some n) :
    k / n < n := by
  cases t <;> cases hn <;> simp only [positions] at hk <;> omega

end Ty

namespace Infer

open Solver

/-- The program fixes the type of the class of a node: evidence gives it to a node of the class, or
such a node had it before inference. -/
def Context.Fixed (c : Context) (i : Id) (t : Ty) : Prop :=
  ∃ j, c.Same i j ∧ (c.Seed j t ∨ c.graph.ty? j = some t)

theorem Context.Fixed.congr {c : Context} {i j : Id} {t : Ty} (hij : c.Same i j)
    (h : c.Fixed i t) : c.Fixed j t := by
  obtain ⟨k, hk, ht⟩ := h
  exact ⟨k, hij.symm.trans hk, ht⟩

/-- The type has all positions that are noted at nodes without type. -/
def Roomy (c : Context) (x : Graph) (t : Ty) : Prop :=
  ∀ i ∈ c.untyped x, ∀ k, c.topIndex? x i = some k → k < t.positions

/-- The type may stand at the node: the program fixes it, or it has room both for the positions of
the node and for those of all nodes without type. -/
def Suits (c : Context) (x : Graph) (i : Id) (t : Ty) : Prop :=
  c.Fixed i t ∨ (∀ k, c.topIndex? x i = some k → k < t.positions) ∧ Roomy c x t

theorem Keeps.topIndex?_eq {s s' : State} (h : Keeps s s') (c : Context) :
    c.topIndex? s'.graph = c.topIndex? s.graph := by
  funext i
  unfold Context.topIndex?
  simp only [h.topIndex]

theorem Roomy.keeps {c : Context} {s s' : State} {t : Ty} (hkeep : Keeps s s')
    (h : Roomy c s.graph t) : Roomy c s'.graph t := by
  intro i hi k hk
  obtain ⟨hio, hn⟩ := Context.mem_untyped.mp hi
  rw [hkeep.topIndex?_eq] at hk
  exact h i (Context.mem_untyped.mpr ⟨hio, hkeep.none_of_none hn⟩) k hk

theorem Suits.keeps {c : Context} {s s' : State} {i : Id} {t : Ty} (hkeep : Keeps s s')
    (h : Suits c s.graph i t) : Suits c s'.graph i t := by
  refine h.imp id fun hroom => ⟨fun k hk => hroom.1 k ?_, hroom.2.keeps hkeep⟩
  rwa [hkeep.topIndex?_eq] at hk

/-! ## Types and their reasons -/

/-- Every type is there for a reason, and only nodes of the program are pending. -/
structure Accounted (c : Context) (R : Graph → Id → Ty → Prop) (s : State) : Prop where
  size : s.graph.size = c.graph.size
  typed : ∀ i ∈ c.order, ∀ t, s.graph.ty? i = some t → R s.graph i t
  pending : ∀ i ∈ s.pending, i ∈ c.order

section Operations

variable {g : Graph} (ht : g.IsTree) {s : State}

include ht

/-- **Giving a type to a binding**, where each of its nodes has a reason for it at the time when it
gets it. -/
theorem ends_assign_accounted {R : Graph → Id → Ty → Prop} {i : Id} {t : Ty} {b : Bool}
    (hstay : ∀ {s s' i t}, Keeps s s' → R s.graph i t → R s'.graph i t) (hi : i ∈ g.live)
    (hs : Accounted g.context R s)
    (hnew : ∀ j ∈ (Scopes.resolve g).occurrences i, ∀ s', Keeps s s' →
      s'.graph.ty? j = none → R s'.graph j t) :
    Ends (assign g.context i t b) s
      (fun _ s' => Accounted g.context R s' ∧ Keeps s s' ∧ s'.graph.ty? i = some t)
      (fun _ => True) := by
  unfold assign
  refine (ends_forM (I := fun s' => Accounted g.context R s' ∧ Keeps s s') (R := Keeps)
    (P := fun j s' => s'.graph.ty? j = some t) Keeps.refl (fun _ _ _ => Keeps.trans)
    (fun _ _ _ hk => hk.ty) ?_ ⟨hs, .refl s⟩).mono fun _ s' h =>
      ⟨h.1.1, h.1.2, h.2.2 i (Scopes.self_mem_occurrences i)⟩
  rintro j hj s₁ ⟨hs₁, hkeep⟩
  have hjl := Scopes.live_of_mem_occurrences hi hj
  unfold assignNode
  apply ends_get_bind
  cases hjt : s₁.graph.ty? j with
  | some found =>
    dsimp only
    split_ifs with hf
    · exact ends_pure ⟨⟨hs₁, hkeep⟩, .refl s₁, by rw [hjt, hf]⟩
    · exact ends_throw trivial
  | none =>
    have hlt : j < s₁.graph.size := hs₁.size ▸ ht.lt_size hjl
    have hgive : Keeps s₁ (s₁.give j t b) := (Grows.give hlt hjt).toKeeps
    refine ends_set ⟨⟨⟨hgive.size.trans hs₁.size, fun k hk u hu => ?_, fun k hk => ?_⟩,
      hkeep.trans hgive⟩, hgive, State.ty?_give_self hlt⟩
    · by_cases hjk : j = k
      · subst hjk
        rw [State.ty?_give_self hlt] at hu
        obtain rfl := Option.some.inj hu
        exact hstay hgive (hnew j hj s₁ hkeep hjt)
      · rw [State.ty?_give_of_ne hjk] at hu
        exact hstay hgive (hs₁.typed k hk u hu)
    · rcases List.mem_cons.mp hk with rfl | hk
      · exact hjl
      · exact hs₁.pending k hk

/-- A type that the program fixes or that has room for everything may be given to any binding. -/
theorem ends_assign_suits {i : Id} {t : Ty} {b : Bool} (hi : i ∈ g.live)
    (hs : Accounted g.context (Suits g.context) s)
    (htype : g.context.Fixed i t ∨ Roomy g.context s.graph t) :
    Ends (assign g.context i t b) s
      (fun _ s' => Accounted g.context (Suits g.context) s' ∧ Keeps s s' ∧
        s'.graph.ty? i = some t) (fun _ => True) := by
  refine ends_assign_accounted ht Suits.keeps hi hs fun j hj s' hkeep hn => ?_
  rcases htype with hfixed | hroom
  · exact .inl (hfixed.congr (Context.same_of_mem_occurrences hi hj))
  · have hroom' := hroom.keeps hkeep
    have hjl : j ∈ g.live := Scopes.live_of_mem_occurrences hi hj
    exact .inr ⟨hroom' j (Context.mem_untyped.mpr ⟨hjl, hn⟩), hroom'⟩

theorem ends_share_suits {p : Id × Id} (h₁ : p.1 ∈ g.live) (h₂ : p.2 ∈ g.live)
    (hp : g.context.Same p.1 p.2) (hs : Accounted g.context (Suits g.context) s) :
    Ends (share g.context p) s
      (fun _ s' => Accounted g.context (Suits g.context) s' ∧ Keeps s s') (fun _ => True) := by
  have spread : ∀ {i j t}, i ∈ g.live → j ∈ g.live → g.context.Same i j → s.graph.ty? i = some t →
      ∀ b, Ends (assign g.context j t b) s
        (fun _ s' => Accounted g.context (Suits g.context) s' ∧ Keeps s s') (fun _ => True) := by
    intro i j t hi hj hij hty b
    refine (ends_assign_suits ht hj hs ?_).mono fun _ s' h => ⟨h.1, h.2.1⟩
    exact (hs.typed i hi t hty).imp (fun h => h.congr hij) And.right
  unfold share
  apply ends_get_bind
  dsimp only
  cases ht₁ : s.graph.ty? p.1 with
  | some t =>
    cases ht₂ : s.graph.ty? p.2 with
    | some u =>
      dsimp only
      split_ifs
      · exact ends_pure ⟨hs, .refl s⟩
      · exact ends_throw trivial
    | none => exact spread h₁ h₂ hp ht₁ _
  | none =>
    cases ht₂ : s.graph.ty? p.2 with
    | some u => exact spread h₂ h₁ hp.symm ht₂ _
    | none => exact ends_pure ⟨hs, .refl s⟩

theorem ends_drainUpTo_suits {n : Nat} (hs : Accounted g.context (Suits g.context) s) :
    Ends (drainUpTo g.context n) s
      (fun _ s' => Accounted g.context (Suits g.context) s' ∧ Keeps s s') (fun _ => True) := by
  induction n generalizing s with
  | zero => exact ends_pure ⟨hs, .refl s⟩
  | succ n ih =>
    unfold drainUpTo
    apply ends_get_bind
    cases hp : s.pending with
    | nil => exact ends_pure ⟨hs, .refl s⟩
    | cons i rest =>
      have hpend : ∀ j ∈ i :: rest, j ∈ g.live := fun j hj => hs.pending j (hp ▸ hj)
      let s₀ : State := { s with pending := rest }
      have hs₀ : Accounted g.context (Suits g.context) s₀ :=
        ⟨hs.size, hs.typed, fun j hj => hpend j (List.mem_cons_of_mem _ hj)⟩
      have hkeep₀ : Keeps s s₀ := ⟨rfl, id, fun _ => rfl, fun _ => rfl⟩
      refine (ends_set (Q := fun _ s' => s' = s₀) rfl).bind ?_
      rintro _ _ rfl
      refine (ends_forM (I := Accounted g.context (Suits g.context)) (R := Keeps)
        (P := fun _ _ => True) Keeps.refl (fun _ _ _ => Keeps.trans) (fun _ _ _ _ _ => trivial)
        (fun p hp s₁ hs₁ => ?_) hs₀).bind ?_
      · have hlink := Context.linked_of_mem_links ht (hpend i List.mem_cons_self) hp
        have hlive : p.1 ∈ g.live ∧ p.2 ∈ g.live :=
          hlink.elim (fun hj => hj.live ht) fun hj => (hj.live ht).symm
        refine (ends_share_suits ht hlive.1 hlive.2 hlink.same hs₁).mono fun _ s₂ h => ?_
        exact ⟨h.1, h.2, trivial⟩
      · rintro _ s₁ ⟨hs₁, hkeep₁, -⟩
        exact (ih hs₁).mono fun _ s₂ h => ⟨h.1, hkeep₀.trans (hkeep₁.trans h.2)⟩

omit ht in
/-- **The type of a rule of last resort has room for every node without type**: widening takes the
largest position first, and the other rules wait until no position is left. -/
theorem roomy_of_fallback? {c : Context} {x : Graph} {f : Fallback} (hf : c.fallback? x = some f) :
    match f with
    | .widen _ k => ∀ t, Ty.forIndex? k = some t → Roomy c x t
    | .hint _ t | .guess _ t => Roomy c x t := by
  unfold Context.fallback? at hf
  rw [Option.or_eq_some_iff, Option.or_eq_some_iff] at hf
  have nothing : c.widening? x = none → ∀ t, Roomy c x t := by
    intro hw t i hi k hk
    rw [Context.widening?_eq_none hw hi] at hk
    cases hk
  rcases hf with (hf | ⟨hw, hf⟩) | ⟨hnone, hf⟩
  · obtain ⟨i, k, rfl, -, -, hall⟩ := Context.widening?_eq_some hf
    intro t htk j hj m hm
    exact (hall j hj m hm).trans_lt (Ty.lt_positions_of_forIndex? htk)
  · obtain ⟨i, t, -, -, rfl, -⟩ := Context.hinting?_eq_some hf
    exact nothing hw t
  · obtain ⟨i, -, rfl⟩ := Option.map_eq_some_iff.mp hf
    exact nothing (Option.or_eq_none_iff.mp hnone).1 _

theorem ends_apply_suits {f : Fallback} (hs : Accounted g.context (Suits g.context) s)
    (hf : g.context.fallback? s.graph = some f) :
    Ends (f.apply g.context) s
      (fun _ s' => Accounted g.context (Suits g.context) s' ∧ Keeps s s' ∧ s'.untyped < s.untyped)
      (fun _ => True) := by
  obtain ⟨hlive, hn⟩ := Context.mem_untyped.mp (Context.node_mem_untyped hf)
  have hlt : f.node < s.graph.size := hs.size ▸ ht.lt_size hlive
  have note_assign : ∀ (n : Note) (t : Ty) (b : Bool), Roomy g.context s.graph t →
      Ends (do note n; Infer.assign g.context f.node t b) s
        (fun _ s' => Accounted g.context (Suits g.context) s' ∧ Keeps s s' ∧
          s'.untyped < s.untyped) (fun _ => True) := by
    intro n t b hroom
    refine (ends_modify (Q := fun _ s' => s' = { s with notes := s.notes.push n }) rfl).bind ?_
    rintro _ _ rfl
    refine (ends_assign_suits ht (s := { s with notes := s.notes.push n }) hlive
      ⟨hs.size, hs.typed, hs.pending⟩ (.inr hroom)).mono ?_
    rintro _ s' ⟨hs', hkeep, hty⟩
    have hall : Keeps s s' := (Grows.note s n).toKeeps.trans hkeep
    exact ⟨hs', hall, hall.untyped_lt hlt hn (by rw [hty]; exact Option.some_ne_none t)⟩
  have hroom := roomy_of_fallback? hf
  cases f with
  | widen i k =>
    unfold Fallback.apply
    apply ends_get_bind
    cases htk : Ty.forIndex? k with
    | none => exact ends_throw trivial
    | some t => exact note_assign _ t _ (hroom t htk)
  | hint i t => exact ends_get_bind (note_assign _ t _ hroom)
  | guess i t => exact ends_get_bind (note_assign _ t _ hroom)

theorem ends_settle_suits {n : Nat} (hs : Accounted g.context (Suits g.context) s)
    (hn : s.untyped ≤ n) :
    Ends (settle g.context n) s
      (fun _ s' => Accounted g.context (Suits g.context) s' ∧ Keeps s s' ∧
        g.context.fallback? s'.graph = none) (fun _ => True) := by
  induction n generalizing s with
  | zero =>
    refine (ends_drainUpTo_suits ht hs).mono ?_
    rintro _ s' ⟨hs', hkeep⟩
    have hle := hkeep.untyped_le
    refine ⟨hs', hkeep, fallback?_eq_none (fun i hi => ?_) (by omega)⟩
    exact hs'.size ▸ ht.lt_size hi
  | succ n ih =>
    unfold settle
    refine (ends_drainUpTo_suits ht hs).bind ?_
    rintro _ s₁ ⟨hs₁, hkeep₁⟩
    apply ends_get_bind
    cases hf : g.context.fallback? s₁.graph with
    | none => exact ends_pure ⟨hs₁, hkeep₁, hf⟩
    | some f =>
      refine (ends_apply_suits ht hs₁ hf).bind ?_
      rintro _ s₂ ⟨hs₂, hkeep₂, hlt⟩
      have hle := hkeep₁.untyped_le
      refine (ih hs₂ (by omega)).mono ?_
      rintro _ s₃ ⟨hs₃, hkeep₃, hnone⟩
      exact ⟨hs₃, hkeep₁.trans (hkeep₂.trans hkeep₃), hnone⟩

/-! ## Taking in the evidence -/

theorem ends_take_fixed {e : Evidence} (he : e ∈ g.context.evidence)
    (hs : Accounted g.context (fun _ => g.context.Fixed) s) :
    Ends (e.take g.context) s (fun _ s' => Accounted g.context (fun _ => g.context.Fixed) s' ∧
      Gathers s s' ∧ Taken e s') (fun _ => True) := by
  cases e with
  | hasType i t =>
    have hseed := Context.hasType_mem_evidence.mp he
    refine (ends_assign_accounted ht (fun _ h => h) (hseed.live ht) hs fun j hj _ _ _ => ?_).mono
      fun _ s' h => ⟨h.1, h.2.1.gathers, h.2.2⟩
    exact Context.Fixed.congr (Context.same_of_mem_occurrences (hseed.live ht) hj)
      ⟨i, .refl i, .inl hseed⟩
  | indexedAt i k =>
    have hlt : i < s.graph.size :=
      hs.size ▸ ht.lt_size ((Context.indexedAt_mem_evidence.mp he).live ht)
    refine ends_modify ⟨⟨(Graph.size_modify _ _ _).trans hs.size, fun j hj t hty => ?_, hs.pending⟩,
      .observe hlt, ?_⟩
    · exact hs.typed j hj t (State.ty?_observe s i j k ▸ hty)
    · exact ⟨_, le_max_right _ k, State.topIndex_observe_self s k hlt⟩
  | notAVector i length => exact ends_get_bind (ends_throw trivial)
  | wrongArity k n => exact ends_throw trivial

theorem ends_seed_fixed : Ends (seed g.context) { graph := g }
    (fun _ s => Accounted g.context (fun _ => g.context.Fixed) s ∧
      ∀ e ∈ g.context.evidence, Taken e s) (fun _ => True) := by
  have start : Accounted g.context (fun _ => g.context.Fixed) { graph := g } :=
    ⟨rfl, fun i _ t hty => ⟨i, .refl i, .inr hty⟩, fun i hi => by cases hi⟩
  unfold seed
  exact (ends_forM (R := Gathers) (P := Taken) (fun s => (Keeps.refl s).gathers)
    (fun _ _ _ => Gathers.trans) (fun _ _ _ => Taken.gathers)
    (fun e he s hs => ends_take_fixed ht he hs) start).mono fun _ _ h => ⟨h.1, h.2.2⟩

/-- **At the end of inference** an object that is indexed at a literal position has a type, which
the program fixes or which has that position. -/
theorem ends_solve_room : Ends (solve g.context) { graph := g }
    (fun _ s => ∀ o k, g.context.IndexedAt o k → ∃ t, s.graph.ty? o = some t ∧
      (k < t.positions ∨ g.context.Fixed o t)) (fun _ => True) := by
  unfold solve
  refine (ends_seed_fixed ht).bind ?_
  rintro _ s ⟨hs, htaken⟩
  have hs' : Accounted g.context (Suits g.context) s :=
    ⟨hs.size, fun i hi t hty => .inl (hs.typed i hi t hty), hs.pending⟩
  refine (ends_settle_suits ht hs' (State.untyped_le_size.trans hs.size.le)).mono ?_
  rintro _ s₁ ⟨hs₁, hkeep, hnone⟩ o k hx
  obtain ⟨m, hkm, hm⟩ := htaken _ (Context.indexedAt_mem_evidence.mpr hx)
  rw [← hkeep.topIndex] at hm
  have hself : o ∈ g.context.scopes.occurrences o := Scopes.self_mem_occurrences o
  obtain ⟨top, hmt, htop⟩ := Context.topIndex?_ge hself hm
  have hol : o ∈ g.context.order := hx.live ht
  cases hty : s₁.graph.ty? o with
  | none =>
    -- a node without type but with a position would still have to be widened
    have hwiden := (Option.or_eq_none_iff.mp (Option.or_eq_none_iff.mp hnone).1).1
    rw [Context.widening?_eq_none hwiden (Context.mem_untyped.mpr ⟨hol, hty⟩)] at htop
    cases htop
  | some t =>
    refine ⟨t, rfl, ?_⟩
    rcases hs₁.typed o hol t hty with hfixed | ⟨hroom, -⟩
    · exact .inr hfixed
    · exact .inl ((hkm.trans hmt).trans_lt (hroom top htop))

end Operations

end Infer

open Infer

theorem Graph.indexedAt_context {g : Graph} {i object position : Id} {k : Nat} (hi : i ∈ g.live)
    (hk : g.kind i = .index object position) (hlit : g.literalIndex? position = some k) :
    g.context.IndexedAt object k :=
  ⟨i, hi, position, hk, hlit⟩

/-- **An object whose type nothing fixes has room for its literal positions.** -/
theorem exists_room_infer {g : Graph} (ht : g.IsTree)
    (hok : (infer g (CallTable.resolve g)).failure = none) {o : Id} {k : Nat}
    (hx : g.context.IndexedAt o k) :
    ∃ t, (infer g (CallTable.resolve g)).graph.ty? o = some t ∧
      (k < t.positions ∨ g.context.Fixed o t) := by
  have hends := ends_solve_room ht
  unfold infer at hok ⊢
  unfold Solver.Ends at hends
  rw [show g.context = .of g (CallTable.resolve g) from rfl] at hends
  rcases hr : (solve (.of g (CallTable.resolve g))).run.run { graph := g } with ⟨e | _, s⟩
  · rw [hr] at hok
    cases hok
  · rw [hr] at hends
    exact hends o k hx

end ShaderScript
