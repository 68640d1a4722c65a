import ShaderScript.Proofs.Infer.Outcome
import ShaderScript.Proofs.Infer.Shape

/-!
# Inference within its bounds

The steps of inference and the rounds of its last resorts are bounded by the number of nodes. Where
every reference is to a node they never run out, whatever the calls of the program and the facts
attached to it before are.

* `Context.inside_links`, `Context.lt_of_hasType`: inference looks at nodes of the program only.
* `Absorbed`: a piece of evidence that has been taken in for good.
* `Onward`: what `assign` and `share` do, with one lemma for each operation.
* **`Onward.apply`**: each rule of last resort gives a type to a node that had none.
-/

namespace ShaderScript

namespace Infer

open Graph Solver

/-! ## What inference looks at -/

/-- Both nodes of a pair are nodes of the program. -/
def Inside (k : Graph) (p : Id × Id) : Prop := p.1 < k.size ∧ p.2 < k.size

namespace Context

section Parts

variable (g : Graph) (calls : CallTable)

@[simp] theorem of_graph : (of g calls).graph = g := rfl

@[simp] theorem of_calls : (of g calls).calls = calls := rfl

@[simp] theorem of_scopes : (of g calls).scopes = Scopes.resolve g := rfl

@[simp] theorem of_order : (of g calls).order = g.live := rfl

end Parts

variable {k : Graph} (hk : k.InRange) {calls : CallTable}

include hk

theorem inside_formLinks {i : Id} {p : Id × Id} (hp : p ∈ (of k calls).formLinks i) :
    Inside k p := by
  have lt : ∀ c ∈ k.children i, i < k.size ∧ c < k.size := fun c hc =>
    ⟨lt_size_of_mem_children hc, hk.child_lt hc⟩
  unfold formLinks Inside at *
  split at hp
  case h_7 => cases hp
  all_goals
    rename_i hi
    simp only [children, show k.kind i = _ from hi, Kind.children, List.mem_cons, List.not_mem_nil,
      or_false, forall_eq_or_imp, forall_eq] at lt hp
    grind

theorem inside_functionLinks {i : Id} {p : Id × Id} (hp : p ∈ (of k calls).functionLinks i) :
    Inside k p := by
  unfold functionLinks at hp
  split at hp
  case h_2 => cases hp
  case h_1 name params body hi =>
    have lt : ∀ c ∈ name :: (params ++ [body]), c < k.size := fun c hc =>
      hk.child_lt (i := i) (by rwa [children, show k.kind i = _ from hi])
    have hname := lt name List.mem_cons_self
    rcases List.mem_append.mp hp with hp | hp
    · obtain ⟨o, -, ho⟩ := List.mem_flatMap.mp hp
      unfold callLinks at ho
      split at ho
      case h_1 => cases ho
      case h_2 call _ =>
        split at ho
        case h_2 => cases ho
        case h_1 callee args hcall =>
          split_ifs at ho
          · have hargs : ∀ c ∈ callee :: args, c ∈ k.children call := fun c hc => by
              rwa [children, show k.kind call = _ from hcall]
            rcases List.mem_cons.mp ho with rfl | ho
            · exact ⟨hname, lt_size_of_mem_children (hargs callee List.mem_cons_self)⟩
            · obtain ⟨hparam, harg⟩ := List.of_mem_zip ho
              exact ⟨lt _ (List.mem_cons_of_mem _ (List.mem_append_left _ hparam)),
                hk.child_lt (hargs _ (List.mem_cons_of_mem _ harg))⟩
          · cases ho
    · obtain ⟨value, hvalue, rfl⟩ := List.mem_map.mp hp
      obtain ⟨ret, -, hret⟩ := List.mem_filterMap.mp hvalue
      refine ⟨hname, hk.child_lt (i := ret) ?_⟩
      unfold returned? at hret
      unfold children
      split at hret
      case h_1 hkind =>
        rw [show k.kind ret = _ from hkind, hret]
        exact List.mem_singleton_self _
      case h_2 => cases hret

theorem inside_links {i : Id} {p : Id × Id} (hp : p ∈ (of k calls).links i) : Inside k p := by
  unfold links at hp
  rcases List.mem_append.mp hp with hp | hp
  · exact inside_formLinks hk hp
  split at hp
  case h_2 => cases hp
  case h_1 q _ =>
    have lt : ∀ c ∈ k.children q, q < k.size ∧ c < k.size := fun c hc =>
      ⟨lt_size_of_mem_children hc, hk.child_lt hc⟩
    unfold parentLinks at hp
    split at hp
    case h_1 name init hq =>
      rw [children, show k.kind q = _ from hq] at lt
      obtain rfl := List.mem_singleton.mp hp
      have hinit : init ∈ name :: (some init).toList := List.mem_cons_of_mem _ List.mem_cons_self
      exact ⟨(lt name List.mem_cons_self).2, (lt init hinit).2⟩
    case h_2 callee args hq =>
      rw [children, show k.kind q = _ from hq] at lt
      split_ifs at hp with hi
      · obtain rfl := List.mem_singleton.mp hp
        obtain ⟨hq', hc⟩ := lt callee List.mem_cons_self
        exact ⟨hi ▸ hc, hq'⟩
      · split at hp
        case h_1 => exact inside_functionLinks hk hp
        case h_2 => cases hp
    case h_3 => exact inside_functionLinks hk hp
    case h_4 value hq =>
      rw [children, show k.kind q = _ from hq] at lt
      unfold returnLinks at hp
      split at hp
      case h_2 => cases hp
      case h_1 name params body hf =>
        obtain ⟨f, -, hf⟩ := Option.map_eq_some_iff.mp hf
        obtain rfl := List.mem_singleton.mp hp
        refine ⟨hk.child_lt (i := f) ?_, (lt value (List.mem_singleton_self _)).2⟩
        rw [children, show k.kind f = _ from hf]
        exact List.mem_cons_self
    case h_5 =>
      split_ifs at hp
      · cases hp
      · exact inside_formLinks hk hp
    case h_6 | h_7 | h_8 | h_9 => exact inside_formLinks hk hp
    case h_10 => cases hp

theorem lt_of_hasType {i : Id} {t : Ty} (hi : .hasType i t ∈ (of k calls).evidence) :
    i < k.size := by
  have child : ∀ {j c : Id} {l : Kind}, (of k calls).graph.kind j = l → c ∈ l.children →
      c < k.size := fun hj hc => hk.child_lt (by rwa [children, show k.kind _ = _ from hj])
  cases hasType_mem_evidence.mp hi with
  | array hl | call hl | access hl => exact hk.lt_size hl
  | element _ hj _ ha => exact child hj ha
  | argument _ _ hj _ ha => exact child hj (List.mem_cons_of_mem _ (List.of_mem_zip ha).1)
  | position _ hj => exact child hj (List.mem_cons_of_mem _ (List.mem_singleton_self _))

theorem lt_of_indexedAt {i : Id} {n : Nat} (hi : .indexedAt i n ∈ (of k calls).evidence) :
    i < k.size := by
  obtain ⟨j, -, position, hj, -⟩ := indexedAt_mem_evidence.mp hi
  refine hk.child_lt (i := j) ?_
  rw [children, show k.kind j = _ from hj]
  exact List.mem_cons_self

theorem occurrences_lt {i j : Id} (hi : i < k.size) (hj : j ∈ (of k calls).scopes.occurrences i) :
    j < k.size := by
  rcases Scopes.mem_occurrences_iff.mp hj with rfl | ⟨-, hlive, -⟩
  · exact hi
  · exact hk.lt_size hlive

end Context

/-! ## What the operations do -/

/-- A piece of evidence that has been taken in: taking it in again would have no effect. -/
def Absorbed (c : Context) (s : State) : Evidence → Prop
  | .hasType i t => ∀ j ∈ c.scopes.occurrences i, s.graph.ty? j = some t
  | .indexedAt i k => ∃ m, k ≤ m ∧ (s.graph.node i).topIndex = some m
  | .notAVector .. | .wrongArity .. => False

theorem Absorbed.gathers {c : Context} {s s' : State} {e : Evidence} (h : Gathers s s')
    (he : Absorbed c s e) : Absorbed c s' e := by
  cases e with
  | hasType i t => exact fun j hj => h.ty (he j hj)
  | indexedAt i k =>
    obtain ⟨m, hle, hm⟩ := he
    obtain ⟨m', hle', hm'⟩ := h.top hm
    exact ⟨m', hle.trans hle', hm'⟩
  | notAVector | wrongArity => exact he

theorem Keeps.gathers {s s' : State} (h : Keeps s s') : Gathers s s' :=
  ⟨h.ty, fun hm => ⟨_, le_rfl, (h.topIndex _).trans hm⟩⟩

/-- The program is the one before up to facts, and nodes that got a type are pending. -/
def Onward (k : Graph) (s s' : State) : Prop := Attached k s' ∧ Grows s s'

namespace Onward

variable {k : Graph} (hk : k.InRange) {calls : CallTable} {s : State} (hs : Attached k s)

include hk hs

theorem assign {i : Id} (hi : i < k.size) (t : Ty) (b : Bool) :
    Ends (assign (.of k calls) i t b) s (fun _ s' => Onward k s s' ∧
      ∀ j ∈ (Context.of k calls).scopes.occurrences i, s'.graph.ty? j = some t)
      (fun _ => True) := by
  refine (ends_forM (I := Attached k) (R := Grows) (P := fun j s' => s'.graph.ty? j = some t)
    Grows.refl (fun _ _ _ => Grows.trans) (fun _ _ _ hgrow => hgrow.ty)
    (fun j hj s₁ hs₁ => ?_) hs).mono fun _ s' h => ⟨⟨h.1, h.2.1⟩, h.2.2⟩
  have hlt : j < s₁.graph.size := hs₁.size ▸ Context.occurrences_lt hk hi hj
  unfold assignNode
  apply ends_get_bind
  cases hj : s₁.graph.ty? j with
  | none => exact ends_set ⟨hs₁.modify (fun _ => rfl) fun _ => rfl, .give hlt hj,
      State.ty?_give_self hlt⟩
  | some found =>
    dsimp only
    split_ifs with hf
    · exact ends_pure ⟨hs₁, .refl s₁, by rw [hj, hf]⟩
    · exact ends_throw trivial

theorem share {p : Id × Id} (hp : Inside k p) :
    Ends (share (.of k calls) p) s (fun _ s' => Onward k s s') (fun _ => True) := by
  unfold Infer.share
  apply ends_get_bind
  dsimp only
  cases s.graph.ty? p.1 with
  | some t =>
    cases s.graph.ty? p.2 with
    | some u =>
      dsimp only
      split_ifs
      · exact ends_pure ⟨hs, .refl s⟩
      · exact ends_throw trivial
    | none => exact (assign hk hs hp.2 ..).mono fun _ _ h => h.1
  | none =>
    cases s.graph.ty? p.2 with
    | some u => exact (assign hk hs hp.1 ..).mono fun _ _ h => h.1
    | none => exact ends_pure ⟨hs, .refl s⟩

theorem links (i : Id) :
    Ends (((Context.of k calls).links i).forM (Infer.share (.of k calls))) s
      (fun _ s' => Onward k s s') (fun _ => True) := by
  refine (ends_forM (I := Attached k) (R := Grows) (P := fun _ _ => True) Grows.refl
    (fun _ _ _ => Grows.trans) (fun _ _ _ _ _ => trivial) (fun p hp s₁ hs₁ => ?_) hs).mono
      fun _ s' h => ⟨h.1, h.2.1⟩
  exact (share hk hs₁ (Context.inside_links hk hp)).mono fun _ _ h => ⟨h.1, h.2, trivial⟩

/-- Taking in evidence keeps the work, and is done once and for all. -/
theorem take {e : Evidence} (he : e ∈ (Context.of k calls).evidence) :
    Ends (e.take (.of k calls)) s (fun _ s' => (Attached k s' ∧ s'.work = s.work) ∧
      Gathers s s' ∧ Absorbed (.of k calls) s' e) (fun _ => True) := by
  cases e with
  | hasType i t =>
    refine (assign hk hs (Context.lt_of_hasType hk he) t false).mono ?_
    rintro _ s' ⟨⟨hs', hgrow⟩, ht⟩
    exact ⟨⟨hs', hgrow.work⟩, hgrow.toKeeps.gathers, ht⟩
  | indexedAt i n =>
    have hlt : i < s.graph.size := hs.size ▸ Context.lt_of_indexedAt hk he
    refine ends_modify ⟨⟨hs.modify (fun _ => rfl) fun _ => rfl, ?_⟩, .observe hlt, ?_⟩
    · exact congrArg (s.pending.length + ·) (State.untyped_observe s i n)
    · exact ⟨_, le_max_right _ n, State.topIndex_observe_self s n hlt⟩
  | notAVector i length => exact ends_get_bind (ends_throw trivial)
  | wrongArity k n => exact ends_throw trivial

theorem apply_typed {f : Fallback} (hlt : f.node < k.size) :
    Ends (f.apply (.of k calls)) s (fun _ s' => Onward k s s' ∧ s'.graph.ty? f.node ≠ none)
      (fun _ => True) := by
  have note_assign : ∀ (n : Note) (t : Ty) (b : Bool),
      Ends (do note n; Infer.assign (.of k calls) f.node t b) s
        (fun _ s' => Onward k s s' ∧ s'.graph.ty? f.node ≠ none) (fun _ => True) := by
    intro n t b
    refine (ends_modify (Q := fun _ s' => s' = { s with notes := s.notes.push n }) rfl).bind ?_
    rintro _ _ rfl
    refine (assign hk (s := { s with notes := s.notes.push n }) hs hlt t b).mono ?_
    rintro _ s' ⟨⟨hs', hgrow⟩, ht⟩
    refine ⟨⟨hs', (Grows.note s n).trans hgrow⟩, ?_⟩
    rw [ht f.node (Scopes.self_mem_occurrences _)]
    exact Option.some_ne_none t
  cases f with
  | widen i m =>
    unfold Fallback.apply
    apply ends_get_bind
    cases Ty.forIndex? m with
    | none => exact ends_throw trivial
    | some t => exact note_assign ..
  | hint i t => exact ends_get_bind (note_assign ..)
  | guess i t => exact ends_get_bind (note_assign ..)

/-- **A rule of last resort gives a type to a node that had none.** -/
theorem apply {f : Fallback} (hf : (Context.of k calls).fallback? s.graph = some f) :
    Ends (f.apply (.of k calls)) s (fun _ s' => Onward k s s' ∧ s'.untyped < s.untyped)
      (fun _ => True) := by
  obtain ⟨hlive, hn⟩ := Context.mem_untyped.mp (Context.node_mem_untyped hf)
  have hlt : f.node < k.size := hk.lt_size hlive
  refine (apply_typed hk hs hlt).mono ?_
  rintro _ s' ⟨⟨hs', hgrow⟩, ht⟩
  exact ⟨⟨hs', hgrow⟩, hgrow.untyped_lt (hs.size ▸ hlt) hn ht⟩

end Onward

end Infer

end ShaderScript
