import ShaderScript.Proofs.Infer.Seeding

/-!
# Rules of last resort

When types have come to rest, a node without type stands for a class without evidence, and the rule
that applies next gives it the type that the reference has for its class.

* `Rested`: nothing is pending, all pairs agree and all evidence is in.
* `Rested.isGreatest_of_widening`, `Rested.reference_of_hinting`, `Rested.reference_of_guessing`:
  what each rule finds.
* **`Rested.grounded`**: the rule that applies next agrees with the reference.
* `ends_apply`: applying it keeps types sound and gives a type to a node that had none.
-/

namespace ShaderScript.Infer

theorem forIndex?_eq_none_iff {k : Nat} : Ty.forIndex? k = none ↔ 16 ≤ k := by
  unfold Ty.forIndex?
  constructor
  · intro hk
    split_ifs at hk
    omega
  · intro hk
    rw [if_neg (by omega), if_neg (by omega), if_neg (by omega), if_neg (by omega),
      if_neg (by omega)]

namespace Context

variable {c : Context} {g : Graph} {i : Id}

/-! ## What the rules look for -/

theorem mem_untyped : i ∈ c.untyped g ↔ i ∈ c.order ∧ g.ty? i = none := by
  unfold untyped
  rw [List.mem_filter, Option.isNone_iff_eq_none]

theorem topIndex?_eq_some {k : Nat} (hk : c.topIndex? g i = some k) :
    ∃ j ∈ c.scopes.occurrences i, (g.node j).topIndex = some k :=
  List.mem_filterMap.mp (List.max?_mem hk)

theorem topIndex?_ge {j : Id} {m : Nat} (hj : j ∈ c.scopes.occurrences i)
    (hm : (g.node j).topIndex = some m) : ∃ k, m ≤ k ∧ c.topIndex? g i = some k := by
  have hmem : m ∈ (c.scopes.occurrences i).filterMap fun o => (g.node o).topIndex :=
    List.mem_filterMap.mpr ⟨j, hj, hm⟩
  unfold topIndex?
  cases hk : ((c.scopes.occurrences i).filterMap fun o => (g.node o).topIndex).max? with
  | none => rw [List.max?_eq_none_iff.mp hk] at hmem; cases hmem
  | some k => exact ⟨k, (List.max?_eq_some_iff.mp hk).2 m hmem, rfl⟩

/-- Searching on from `best` ends at one of the pairs, and at none smaller than the others. -/
theorem foldl_largest (qs : List (Id × Nat)) (best : Id × Nat) :
    let last := qs.foldl (fun best q => if best.2 < q.2 then q else best) best
    last ∈ best :: qs ∧ ∀ q ∈ best :: qs, q.2 ≤ last.2 := by
  induction qs generalizing best with
  | nil => exact ⟨List.mem_cons_self, List.forall_mem_singleton.mpr le_rfl⟩
  | cons q qs ih =>
    rw [List.foldl_cons]
    split_ifs with hlt
    · obtain ⟨hmem, hall⟩ := ih q
      exact ⟨List.mem_cons_of_mem _ hmem,
        List.forall_mem_cons.mpr ⟨hlt.le.trans (hall q List.mem_cons_self), hall⟩⟩
    · obtain ⟨hmem, hall⟩ := ih best
      obtain ⟨hbest, hrest⟩ := List.forall_mem_cons.mp hall
      refine ⟨?_, List.forall_mem_cons.mpr
        ⟨hbest, List.forall_mem_cons.mpr ⟨(not_lt.mp hlt).trans hbest, hrest⟩⟩⟩
      rcases List.mem_cons.mp hmem with he | hmem
      · rw [he]
        exact List.mem_cons_self
      · exact List.mem_cons_of_mem _ (List.mem_cons_of_mem _ hmem)

theorem firstLargest_eq_some {ps : List (Id × Nat)} {p : Id × Nat}
    (hp : firstLargest ps = some p) : p ∈ ps ∧ ∀ q ∈ ps, q.2 ≤ p.2 := by
  cases ps with
  | nil => cases hp
  | cons q qs =>
    obtain rfl := Option.some.inj hp
    exact foldl_largest qs q

theorem widening?_eq_some {f : Fallback} (hf : c.widening? g = some f) :
    ∃ i k, f = .widen i k ∧ i ∈ c.untyped g ∧ c.topIndex? g i = some k ∧
      ∀ j ∈ c.untyped g, ∀ m, c.topIndex? g j = some m → m ≤ k := by
  obtain ⟨⟨i, k⟩, hp, rfl⟩ := Option.map_eq_some_iff.mp hf
  obtain ⟨hmem, hall⟩ := firstLargest_eq_some hp
  obtain ⟨i', hi', hpair⟩ := List.mem_filterMap.mp hmem
  obtain ⟨k', hk', he⟩ := Option.map_eq_some_iff.mp hpair
  obtain ⟨rfl, rfl⟩ := Prod.mk.inj he
  refine ⟨i', k', rfl, hi', hk', fun j hj m hm => ?_⟩
  exact hall (j, m) (List.mem_filterMap.mpr ⟨j, hj, by rw [hm]; rfl⟩)

theorem widening?_eq_none (hn : c.widening? g = none) (hi : i ∈ c.untyped g) :
    c.topIndex? g i = none := by
  cases hk : c.topIndex? g i with
  | none => rfl
  | some k =>
    have hmem : (i, k) ∈ (c.untyped g).filterMap fun i => (c.topIndex? g i).map fun k => (i, k) :=
      List.mem_filterMap.mpr ⟨i, hi, by rw [hk]; rfl⟩
    unfold widening? firstLargest at hn
    split at hn
    · next he => rw [he] at hmem; cases hmem
    · cases hn

theorem hinting?_eq_some {f : Fallback} (hf : c.hinting? g = some f) :
    ∃ i t before after, f = .hint i t ∧ c.order = before ++ i :: after ∧ g.ty? i = none ∧
      (g.node i).hint = some t ∧ ∀ j ∈ before, g.ty? j = none → (g.node j).hint = none := by
  obtain ⟨l₁, i, l₂, hsplit, hi, hfirst⟩ := List.findSome?_eq_some_iff.mp hf
  obtain ⟨t, ht, rfl⟩ := Option.map_eq_some_iff.mp hi
  obtain ⟨m₁, m₂, horder, rfl, hcons⟩ := List.filter_eq_append_iff.mp hsplit
  obtain ⟨k₁, k₂, rfl, hskip, hn, rfl⟩ := List.filter_eq_cons_iff.mp hcons
  refine ⟨i, t, m₁ ++ k₁, k₂, rfl, by rw [horder, List.append_assoc],
    Option.isNone_iff_eq_none.mp hn, ht, fun j hj hjn => ?_⟩
  rw [← Option.isNone_iff_eq_none] at hjn
  rcases List.mem_append.mp hj with hj | hj
  · exact Option.map_eq_none_iff.mp (hfirst j (List.mem_filter.mpr ⟨hj, hjn⟩))
  · exact absurd hjn (hskip j hj)

theorem hinting?_eq_none (hn : c.hinting? g = none) (hi : i ∈ c.untyped g) :
    (g.node i).hint = none :=
  Option.map_eq_none_iff.mp (List.findSome?_eq_none_iff.mp hn i hi)

end Context

/-- The node that a rule of last resort gives a type to. -/
def Fallback.node : Fallback → Id
  | widen i _ | hint i _ | guess i _ => i

theorem Context.node_mem_of_found {c : Context} {g : Graph} {f : Fallback}
    (hf : c.widening? g = some f ∨ c.hinting? g = some f ∨ c.guessing? g = some f) :
    f.node ∈ c.untyped g := by
  rcases hf with hf | hf | hf
  · obtain ⟨i, k, rfl, hi, -⟩ := widening?_eq_some hf
    exact hi
  · obtain ⟨i, hi, hf⟩ := List.exists_of_findSome?_eq_some hf
    obtain ⟨t, -, rfl⟩ := Option.map_eq_some_iff.mp hf
    exact hi
  · obtain ⟨i, hi, rfl⟩ := Option.map_eq_some_iff.mp hf
    exact List.mem_of_find?_eq_some hi

theorem Context.node_mem_untyped {c : Context} {g : Graph} {f : Fallback}
    (hf : c.fallback? g = some f) : f.node ∈ c.untyped g := by
  unfold fallback? at hf
  rw [Option.or_eq_some_iff, Option.or_eq_some_iff] at hf
  refine node_mem_of_found ?_
  rcases hf with (hf | ⟨-, hf⟩) | ⟨-, hf⟩
  · exact .inl hf
  · exact .inr (.inl hf)
  · exact .inr (.inr hf)

theorem fallback?_eq_none {c : Context} {s : State} (hc : ∀ i ∈ c.order, i < s.graph.size)
    (hn : s.untyped = 0) : c.fallback? s.graph = none := by
  by_contra hne
  obtain ⟨f, hf⟩ := Option.ne_none_iff_exists'.mp hne
  obtain ⟨hlive, ht⟩ := Context.mem_untyped.mp (Context.node_mem_untyped hf)
  rw [State.untyped, Finset.card_eq_zero, Finset.filter_eq_empty_iff] at hn
  exact hn (Finset.mem_range.mpr (hc _ hlive)) ht

/-! ## At rest -/

/-- Nothing is pending, all pairs agree and all evidence is in. -/
structure Rested (g : Graph) (s : State) : Prop where
  sound : Sound g.context s
  pending : s.pending = []
  settled : Settled g.context [] s
  gathered : Gathered g s

/-- What a rule of last resort finds: a node without type, in a class that is to have its type. -/
def Fallback.Grounded (g : Graph) (s : State) : Fallback → Prop
  | .widen i k => i ∈ g.live ∧ s.graph.ty? i = none ∧ (∀ t, ¬ g.context.Seeded i t) ∧
      IsGreatest {k | g.context.Indexed i k} k
  | .hint i t | .guess i t => i ∈ g.live ∧ s.graph.ty? i = none ∧ (∀ t, ¬ g.context.Seeded i t) ∧
      g.context.Reference i (some t)

section Rest

open Solver Context Graph

variable {g : Graph} (h : g.Inferable) {s : State} (hr : Rested g s) {i j : Id}

include h hr

theorem Rested.ty?_congr (hij : g.context.Same i j) : s.graph.ty? i = s.graph.ty? j :=
  (hr.sound.closed hr.settled).same h hij

theorem Rested.ty?_of_seeded {t : Ty} (ht : g.context.Seeded i t) : s.graph.ty? i = some t := by
  obtain ⟨j, hij, hj⟩ := ht
  rw [hr.ty?_congr h hij, hr.gathered.seed hj]

theorem Rested.not_seeded (hn : s.graph.ty? i = none) (t : Ty) : ¬ g.context.Seeded i t := by
  intro ht
  rw [hr.ty?_of_seeded h ht] at hn
  cases hn

omit h in
theorem Rested.indexed_of_topIndex? {k : Nat} (hi : i ∈ g.live)
    (hk : g.context.topIndex? s.graph i = some k) : g.context.Indexed i k := by
  obtain ⟨j, hj, hjk⟩ := topIndex?_eq_some hk
  exact ⟨j, Context.same_of_mem_occurrences hi hj,
    hr.gathered.noted j (Scopes.live_of_mem_occurrences hi hj) k hjk⟩

/-- A class without type that is indexed has a node that says so. -/
theorem Rested.topIndex?_of_indexed {k : Nat} (hn : s.graph.ty? i = none)
    (hk : g.context.Indexed i k) :
    ∃ j ∈ g.context.untyped s.graph, ∃ m, k ≤ m ∧ g.context.topIndex? s.graph j = some m := by
  obtain ⟨j, hij, hjk⟩ := hk
  obtain ⟨m, hkm, hm⟩ := hr.gathered.top_le hjk
  obtain ⟨m', hmm', hm'⟩ := topIndex?_ge (c := g.context) (Scopes.self_mem_occurrences j) hm
  refine ⟨j, mem_untyped.mpr ⟨hjk.live h.tree, ?_⟩, m', hkm.trans hmm', hm'⟩
  rw [← hr.ty?_congr h hij, hn]

theorem Rested.isGreatest_of_widening {f : Fallback} (hf : g.context.widening? s.graph = some f) :
    f.Grounded g s := by
  obtain ⟨i, k, rfl, hi, hk, hall⟩ := widening?_eq_some hf
  obtain ⟨hlive, hn⟩ := mem_untyped.mp hi
  refine ⟨hlive, hn, hr.not_seeded h hn, hr.indexed_of_topIndex? hlive hk, fun m hm => ?_⟩
  obtain ⟨j, hj, m', hle, hm'⟩ := hr.topIndex?_of_indexed h hn hm
  exact hle.trans (hall j hj m' hm')

theorem Rested.not_indexed (hw : g.context.widening? s.graph = none) (hn : s.graph.ty? i = none)
    (k : Nat) : ¬ g.context.Indexed i k := by
  intro hk
  obtain ⟨j, hj, m, -, hm⟩ := hr.topIndex?_of_indexed h hn hk
  rw [widening?_eq_none hw hj] at hm
  cases hm

theorem Rested.reference_of_hinting {f : Fallback} (hw : g.context.widening? s.graph = none)
    (hf : g.context.hinting? s.graph = some f) : f.Grounded g s := by
  classical
  obtain ⟨i, t, before, after, rfl, horder, hn, ht, hfirst⟩ := hinting?_eq_some hf
  have hlive : i ∈ g.live := by
    change i ∈ g.context.order
    rw [horder]
    exact List.mem_append_right _ List.mem_cons_self
  refine ⟨hlive, hn, hr.not_seeded h hn,
    .hinted (hr.not_seeded h hn) (hr.not_indexed h hw hn) ?_⟩
  -- the first hint among all nodes without type is the first one in its own class
  refine List.findSome?_eq_some_iff.mpr ⟨before, i, after, horder, ?_, fun j hj => ?_⟩
  · rw [if_pos (Same.refl i), context_graph, ← hr.gathered.hint, ht]
  · split_ifs with hij
    · rw [context_graph, ← hr.gathered.hint]
      exact hfirst j hj (by rw [← hr.ty?_congr h hij, hn])
    · rfl

theorem Rested.classHint?_eq_none (hh : g.context.hinting? s.graph = none)
    (hn : s.graph.ty? i = none) : g.context.classHint? i = none := by
  classical
  refine List.findSome?_eq_none_iff.mpr fun j hj => ?_
  split_ifs with hij
  · rw [context_graph, ← hr.gathered.hint]
    exact hinting?_eq_none hh (mem_untyped.mpr ⟨hj, by rw [← hr.ty?_congr h hij, hn]⟩)
  · rfl

theorem Rested.reference_of_guessing {f : Fallback} (hw : g.context.widening? s.graph = none)
    (hh : g.context.hinting? s.graph = none) (hf : g.context.guessing? s.graph = some f) :
    f.Grounded g s := by
  obtain ⟨i, hi, rfl⟩ := Option.map_eq_some_iff.mp hf
  have hmem := List.mem_of_find?_eq_some hi
  obtain ⟨hlive, hn⟩ := mem_untyped.mp hmem
  rw [widening?_eq_none hw hmem]
  exact ⟨hlive, hn, hr.not_seeded h hn, .guessed (hr.not_seeded h hn) (hr.not_indexed h hw hn)
    (hr.classHint?_eq_none h hh hn) ⟨i, .refl i, List.find?_some hi⟩⟩

/-- **The rule of last resort that applies next agrees with the reference.** -/
theorem Rested.grounded {f : Fallback} (hf : g.context.fallback? s.graph = some f) :
    f.Grounded g s := by
  unfold fallback? at hf
  cases hw : g.context.widening? s.graph with
  | some f' =>
    rw [hw] at hf
    obtain rfl := Option.some.inj hf
    exact hr.isGreatest_of_widening h hw
  | none =>
    cases hh : g.context.hinting? s.graph with
    | some f' =>
      rw [hw, hh] at hf
      obtain rfl := Option.some.inj hf
      exact hr.reference_of_hinting h hw hh
    | none =>
      rw [hw, hh] at hf
      exact hr.reference_of_guessing h hw hh hf

/-- **When no rule applies any more, all types are those of the reference.** -/
theorem Rested.reference (hf : g.context.fallback? s.graph = none) (hi : i ∈ g.live) :
    g.context.Reference i (s.graph.ty? i) := by
  cases ht : s.graph.ty? i with
  | some t =>
    rcases hr.sound.justified i hi t ht with hs | ⟨-, href⟩
    · refine .seeded hs fun u hu => ?_
      rw [hr.ty?_of_seeded h hu] at ht
      exact Option.some.inj ht
    · exact href
  | none =>
    unfold fallback? at hf
    rw [Option.or_eq_none_iff, Option.or_eq_none_iff] at hf
    obtain ⟨⟨hw, hh⟩, hg⟩ := hf
    refine .undetermined (hr.not_seeded h ht) (hr.not_indexed h hw ht)
      (hr.classHint?_eq_none h hh ht) fun j hij => ?_
    have hj : j ∈ g.context.untyped s.graph :=
      mem_untyped.mpr ⟨(hij.live_iff h.tree).mp hi, by rw [← hr.ty?_congr h hij, ht]⟩
    exact Bool.eq_false_iff.mpr (List.find?_eq_none.mp (Option.map_eq_none_iff.mp hg) j hj)

end Rest

end ShaderScript.Infer
