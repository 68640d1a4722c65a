import ShaderScript.Proofs.Call.Table
import ShaderScript.Proofs.Infer.Reference

/-!
# The pairs that inference looks at

When a node gets its type, inference looks at a few pairs around it. Those pairs never relate nodes
of different classes, and whichever end of a join gets its type first, the join is among the pairs
of that end.

* `Context.linked_of_mem_links`: every pair is a join of the program.
* `Context.Fires`: a join is among the pairs of a node.
* `Context.Closed`: types that agree along the pairs of every node that has one.
* **`Context.Closed.same`**: closed types are the same throughout a class.
-/

namespace ShaderScript

open Infer

/-- What inference looks things up in, for a program with its own calls. -/
def Graph.context (g : Graph) : Context := .of g (CallTable.resolve g)

namespace Graph

variable {g : Graph}

@[simp] theorem context_graph : g.context.graph = g := rfl

@[simp] theorem context_scopes : g.context.scopes = Scopes.resolve g := rfl

@[simp] theorem context_calls : g.context.calls = CallTable.resolve g := rfl

/-! ## Calls of declared functions -/

theorem find?_of_nodup {name? : Id → Option String} {fs : List Id} {f : Id} {name : String}
    (hn : (fs.filterMap name?).Nodup) (hf : f ∈ fs) (hname : name? f = some name) :
    fs.find? (fun f => name? f == some name) = some f := by
  induction fs with
  | nil => cases hf
  | cons a fs ih =>
    rw [List.find?_cons]
    by_cases ha : name? a = some name
    · rcases List.mem_cons.mp hf with rfl | hf'
      · rw [ha, beq_self_eq_true]
      · rw [List.filterMap_cons_some ha, List.nodup_cons] at hn
        exact absurd (List.mem_filterMap.mpr ⟨f, hf', hname⟩) hn.1
    · have hfa : f ∈ fs := (List.mem_cons.mp hf).resolve_left fun he => ha (he ▸ hname)
      have hn' : (fs.filterMap name?).Nodup := by
        rw [List.filterMap_cons] at hn
        split at hn
        · exact hn
        · exact (List.nodup_cons.mp hn).2
      rw [beq_false_of_ne ha]
      exact ih hn' hfa

theorem Inferable.target?_user (h : g.Inferable) {f name body call callee : Id}
    {params args : List Id} {n : String} (hf : f ∈ g.live)
    (hkf : g.kind f = .function name params body) (hn : g.identName? name = some n)
    (hc : call ∈ g.live) (hkc : g.kind call = .call callee args)
    (hcn : g.identName? callee = some n) :
    (CallTable.resolve g).target? call = some (.user f) := by
  have hfun : g.isFunction f = true := by rw [isFunction, hkf]
  have hfn : g.functionName? f = some n := by rw [functionName?, hkf]; exact hn
  have hfind : g.findFunction? n = some f :=
    find?_of_nodup h.names (mem_functions.mpr ⟨h.top f hf hfun, hfun⟩) hfn
  rw [CallTable.target?_resolve hc, verdict?, hkc, Option.bind_some, verdict, userFunction?, hcn,
    Option.bind_some, hfind]
  rfl

end Graph

namespace Infer.Context

open Graph

variable {g : Graph} (ht : g.IsTree) (h : g.Inferable)

/-! ## Pairs are joins -/

/-- The pair is a join of the program, in one order or the other. -/
def Linked (c : Context) (p : Id × Id) : Prop := c.Joined p.1 p.2 ∨ c.Joined p.2 p.1

theorem Linked.same {c : Context} {p : Id × Id} (hp : c.Linked p) : c.Same p.1 p.2 :=
  hp.elim Joined.same fun hj => hj.same.symm

theorem linked_of_mem_formLinks {i : Id} {p : Id × Id} (hi : i ∈ g.live)
    (hp : p ∈ g.context.formLinks i) : g.context.Linked p := by
  unfold formLinks at hp
  rw [context_graph] at hp
  split at hp
  case h_1 hk =>
    rw [List.mem_singleton.mp hp]
    exact .inl (.callee hi hk)
  case h_2 hk =>
    rcases List.mem_cons.mp hp with rfl | hp
    · exact .inl (.binaryRight hi hk)
    · rw [List.mem_singleton.mp hp]
      exact .inl (.binaryLeft hi hk)
  case h_3 hk =>
    rcases List.mem_cons.mp hp with rfl | hp
    · exact .inl (.assignRight hi hk)
    · rw [List.mem_singleton.mp hp]
      exact .inl (.assignLeft hi hk)
  case h_4 hk =>
    rw [List.mem_singleton.mp hp]
    exact .inl (.unary hi hk)
  case h_5 hk =>
    rw [List.mem_singleton.mp hp]
    exact .inl (.update hi hk)
  case h_6 hk =>
    rcases List.mem_cons.mp hp with rfl | hp
    · exact .inl (.alternate hi hk)
    · rw [List.mem_singleton.mp hp]
      exact .inl (.consequent hi hk)
  case h_7 => cases hp

include ht in
theorem linked_of_mem_functionLinks {f : Id} {p : Id × Id} (hf : f ∈ g.live)
    (hp : p ∈ g.context.functionLinks f) : g.context.Linked p := by
  unfold functionLinks at hp
  rw [context_graph, context_scopes] at hp
  split at hp
  case h_2 => cases hp
  case h_1 name params body hkf =>
    have hname : name ∈ g.live ∧ g.parent? name = some f := by
      have hc : name ∈ g.children f := by rw [children, hkf]; exact List.mem_cons_self
      exact ⟨ht.child_live hf hc, ht.parent_child f hf name hc⟩
    rcases List.mem_append.mp hp with hp | hp
    · obtain ⟨o, ho, hp⟩ := List.mem_flatMap.mp hp
      unfold callLinks at hp
      rw [context_graph] at hp
      split at hp
      case h_1 => cases hp
      case h_2 call hpar =>
        split at hp
        case h_2 => cases hp
        case h_1 callee args hkc =>
          split_ifs at hp with hcall
          swap
          · cases hp
          obtain ⟨rfl, hlen⟩ := hcall
          rcases Scopes.mem_occurrences_iff.mp ho with rfl | ⟨-, hcl, k, hkn, hkcal⟩
          · rw [hname.2] at hpar
            cases hpar
            rw [hkf] at hkc
            cases hkc
          · obtain ⟨b, hb, hbk, hnb⟩ := Scopes.exists_binding hname.1 hkn
            have hcb : callee ∈ b.occurrences :=
              (Scopes.mem_binding_iff hb).mpr ⟨hcl, hbk ▸ hkcal⟩
            have hcalll := (ht.parent_live hcl hpar).1
            rcases List.mem_cons.mp hp with rfl | hp
            · exact .inl (.callSite hf hkf hcalll hkc hb hnb hcb hlen)
            · exact .inl (.argument hf hkf hcalll hkc hb hnb hcb hlen hp)
    · obtain ⟨value, hv, rfl⟩ := List.mem_map.mp hp
      obtain ⟨r, hr, hrv⟩ := List.mem_filterMap.mp hv
      rw [returns, List.mem_filter, Bool.and_eq_true, beq_iff_eq] at hr
      obtain ⟨hrd, -, henc⟩ := hr
      obtain ⟨d, hd⟩ := (ht.mem_descendants_iff hf).mp hrd
      unfold returned? at hrv
      split at hrv
      case h_2 => cases hrv
      case h_1 hkr =>
        subst hrv
        exact .inl (.returned (ht.live_of_below hf hd) hkr henc hkf)

include ht in
theorem linked_of_mem_parentLinks {i p : Id} {q : Id × Id} (hp : p ∈ g.live)
    (hq : q ∈ g.context.parentLinks i p) : g.context.Linked q := by
  unfold parentLinks at hq
  rw [context_graph, context_calls] at hq
  split at hq
  case h_1 hk =>
    rw [List.mem_singleton.mp hq]
    exact .inl (.declarator hp hk)
  case h_2 callee args hk =>
    split_ifs at hq with hc
    · rw [List.mem_singleton.mp hq]
      exact .inr (.callee hp (hc ▸ hk))
    · split at hq
      case h_2 => cases hq
      case h_1 f hf =>
        refine linked_of_mem_functionLinks ht ?_ hq
        rw [CallTable.target?_resolve hp, verdict?, hk, Option.bind_some, verdict] at hf
        split at hf
        case h_1 f' hf' =>
          cases hf
          obtain ⟨n, -, hn⟩ := Option.bind_eq_some_iff.mp hf'
          have hfb := (mem_functions.mp (List.mem_of_find?_eq_some hn)).1
          exact ht.child_live ht.root_live (body_subset_children hfb)
        case h_2 => split at hf <;> cases hf
  case h_3 => exact linked_of_mem_functionLinks ht hp hq
  case h_4 value hk =>
    unfold returnLinks at hq
    rw [context_graph] at hq
    split at hq
    case h_2 => cases hq
    case h_1 name params body hf =>
      obtain ⟨f, henc, hkf⟩ := Option.map_eq_some_iff.mp hf
      rw [List.mem_singleton.mp hq]
      exact .inl (.returned hp hk henc hkf)
  case h_5 =>
    split_ifs at hq
    · cases hq
    · exact linked_of_mem_formLinks hp hq
  case h_6 | h_7 | h_8 | h_9 => exact linked_of_mem_formLinks hp hq
  case h_10 => cases hq

include ht in
/-- **Every pair that inference looks at is a join of the program.** -/
theorem linked_of_mem_links {i : Id} {p : Id × Id} (hi : i ∈ g.live)
    (hp : p ∈ g.context.links i) : g.context.Linked p := by
  unfold links at hp
  rcases List.mem_append.mp hp with hp | hp
  · exact linked_of_mem_formLinks hi hp
  · rw [context_graph] at hp
    split at hp
    case h_1 q hq => exact linked_of_mem_parentLinks ht (ht.parent_live hi hq).1 hp
    case h_2 => cases hp

/-! ## Joins fire from both ends -/

/-- The join of `i` with `j` is among the pairs of `i`. -/
def Fires (c : Context) (i j : Id) : Prop := (i, j) ∈ c.links i ∨ (j, i) ∈ c.links i

theorem mem_links_of_form {i : Id} {p : Id × Id} (hp : p ∈ g.context.formLinks i) :
    p ∈ g.context.links i :=
  List.mem_append_left _ hp

theorem mem_links_of_parent {i q : Id} {p : Id × Id} (hq : g.parent? i = some q)
    (hp : p ∈ g.context.parentLinks i q) : p ∈ g.context.links i := by
  unfold links
  rw [context_graph, hq]
  exact List.mem_append_right _ hp

include h in
/-- The pairs of an operation are among the pairs of those operands that pass them on. -/
theorem mem_links_of_operand {i a : Id} {p : Id × Id} (hi : i ∈ g.live) (ha : a ∈ g.children i)
    (hpass : g.context.parentLinks a i = g.context.formLinks i)
    (hp : p ∈ g.context.formLinks i) : p ∈ g.context.links a :=
  mem_links_of_parent (h.tree.parent_child i hi a ha) (hpass ▸ hp)

/-- Types that agree along the pairs of every node that has one, and within each binding. -/
structure Closed (c : Context) (ty : Id → Option Ty) : Prop where
  uniform : ∀ i ∈ c.order, ∀ j ∈ c.scopes.occurrences i, ty j = ty i
  agree : ∀ i ∈ c.order, ty i ≠ none → ∀ p ∈ c.links i, p.1 = i ∨ p.2 = i → ty p.1 = ty p.2

theorem Closed.of_fires {c : Context} {ty : Id → Option Ty} (hc : c.Closed ty) {i j : Id}
    (hi : i ∈ c.order) (hj : j ∈ c.order) (hij : c.Fires i j) (hji : c.Fires j i) :
    ty i = ty j := by
  by_cases hti : ty i = none
  · by_cases htj : ty j = none
    · rw [hti, htj]
    · rcases hji with hp | hp
      · exact (hc.agree j hj htj _ hp (.inl rfl)).symm
      · exact hc.agree j hj htj _ hp (.inr rfl)
  · rcases hij with hp | hp
    · exact hc.agree i hi hti _ hp (.inl rfl)
    · exact (hc.agree i hi hti _ hp (.inr rfl)).symm

include ht in
theorem Joined.live {i j : Id} (hij : g.context.Joined i j) : i ∈ g.live ∧ j ∈ g.live := by
  have child : ∀ {i a : Id}, i ∈ g.live → a ∈ g.children i → a ∈ g.live := ht.child_live
  cases hij with
  | binding hb hi hj =>
    exact ⟨((Scopes.mem_binding_iff hb).mp hi).1, ((Scopes.mem_binding_iff hb).mp hj).1⟩
  | callee hi hk | binaryLeft hi hk | assignLeft hi hk | unary hi hk | update hi hk
  | consequent hi hk =>
    rw [context_graph] at hk
    exact ⟨hi, child hi (by simp [children, hk, Kind.children])⟩
  | binaryRight hi hk | assignRight hi hk | alternate hi hk | declarator hi hk =>
    rw [context_graph] at hk
    exact ⟨child hi (by simp [children, hk, Kind.children]),
      child hi (by simp [children, hk, Kind.children])⟩
  | callSite hf hkf hc hkc =>
    rw [context_graph] at hkf
    exact ⟨child hf (by simp [children, hkf, Kind.children]), hc⟩
  | argument hf hkf hc hkc _ _ _ _ hz =>
    rw [context_graph] at hkf hkc
    exact ⟨child hf (by simp [children, hkf, Kind.children, (List.of_mem_zip hz).1]),
      child hc (by simp [children, hkc, Kind.children, (List.of_mem_zip hz).2])⟩
  | @returned r value f _ _ _ hr hkr henc hkf =>
    rw [context_graph] at hkf hkr henc
    have hf : f ∈ g.live := (ht.ancestor_below hr (List.mem_of_find?_eq_some henc)).1
    exact ⟨child hf (by simp [children, hkf, Kind.children]),
      child hr (by simp [children, hkr, Kind.children])⟩

include ht in
theorem Same.live_iff {i j : Id} (hij : g.context.Same i j) : i ∈ g.live ↔ j ∈ g.live := by
  induction hij with
  | rel i j hij => exact ⟨fun _ => (hij.live ht).2, fun _ => (hij.live ht).1⟩
  | refl => rfl
  | symm _ _ _ ih => exact ih.symm
  | trans _ _ _ _ _ ih ih' => exact ih.trans ih'

include h in
theorem mem_functionLinks_argument {f name body call callee : Id} {params args : List Id}
    {p : Id × Id} (hkf : g.kind f = .function name params body) (hc : call ∈ g.live)
    (hkc : g.kind call = .call callee args) (hocc : callee ∈ (Scopes.resolve g).occurrences name)
    (hlen : args.length = params.length) (hp : p ∈ params.zip args) :
    p ∈ g.context.functionLinks f := by
  have hpar : g.parent? callee = some call :=
    h.tree.parent_child call hc callee (by simp [children, hkc, Kind.children])
  unfold functionLinks
  rw [context_graph, hkf]
  refine List.mem_append_left _ (List.mem_flatMap.mpr ⟨callee, hocc, ?_⟩)
  unfold callLinks
  rw [context_graph, hpar]
  simp only [hkc, hlen, and_self, if_true]
  exact List.mem_cons_of_mem _ hp

include h in
theorem mem_functionLinks_returned {f name body r value : Id} {params : List Id}
    (hkf : g.kind f = .function name params body) (hr : r ∈ g.live)
    (hkr : g.kind r = .ret (some value)) (henc : g.enclosingFunction? r = some f) :
    (name, value) ∈ g.context.functionLinks f := by
  have hrf : r ∈ g.returns f := by
    refine List.mem_filter.mpr ⟨h.tree.mem_descendants hr (List.mem_of_find?_eq_some henc), ?_⟩
    rw [isReturn, hkr, henc, beq_self_eq_true]
    rfl
  unfold functionLinks
  rw [context_graph, hkf]
  refine List.mem_append_right _ (List.mem_map.mpr ⟨value, ?_, rfl⟩)
  exact List.mem_filterMap.mpr ⟨r, hrf, by rw [returned?, hkr]⟩

include h in
/-- **A join holds of closed types**, whichever of its ends has got a type first. -/
theorem Closed.joined {ty : Id → Option Ty} (hc : g.context.Closed ty) {i j : Id}
    (hij : g.context.Joined i j) : ty i = ty j := by
  obtain ⟨hil, hjl⟩ := hij.live h.tree
  have callee : ∀ {i f args}, i ∈ g.live → g.kind i = .call f args → ty i = ty f := by
    intro i f args hi hk
    have hf : f ∈ g.children i := by simp [children, hk, Kind.children]
    refine hc.of_fires hi (h.tree.child_live hi hf) (.inl (mem_links_of_form ?_)) (.inl ?_)
    · simp [formLinks, hk]
    · exact mem_links_of_parent (h.tree.parent_child i hi f hf) (by simp [parentLinks, hk])
  cases hij with
  | binding hb hi hj => exact hc.uniform _ hjl _ (Scopes.mem_occurrences_of_binding hb hj hi)
  | callee hi hk => exact callee hi hk
  | binaryLeft hi hk | assignLeft hi hk | unary hi hk | update hi hk =>
    rw [context_graph] at hk
    refine hc.of_fires hil hjl (.inl (mem_links_of_form (by simp [formLinks, hk]))) (.inr ?_)
    exact mem_links_of_operand h hi (by simp [children, hk, Kind.children])
      (by simp [parentLinks, hk]) (by simp [formLinks, hk])
  | binaryRight hi hk | assignRight hi hk =>
    rw [context_graph] at hk
    have pass : ∀ {a}, a ∈ g.children _ → (i, j) ∈ g.context.links a := fun ha =>
      mem_links_of_operand h hi ha (by simp [parentLinks, hk]) (by simp [formLinks, hk])
    exact hc.of_fires hil hjl (.inl (pass (by simp [children, hk, Kind.children])))
      (.inr (pass (by simp [children, hk, Kind.children])))
  | @consequent _ t _ b hi hk =>
    rw [context_graph] at hk
    have hnd := h.tree.children_nodup i hi
    simp only [children, hk, Kind.children, List.nodup_cons, List.mem_cons, not_or] at hnd
    refine hc.of_fires hil hjl (.inl (mem_links_of_form (by simp [formLinks, hk]))) (.inr ?_)
    exact mem_links_of_operand h hi (by simp [children, hk, Kind.children])
      (by simp [parentLinks, hk, hnd.1.1]) (by simp [formLinks, hk])
  | @alternate p t _ _ hi hk =>
    rw [context_graph] at hk
    have hnd := h.tree.children_nodup p hi
    simp only [children, hk, Kind.children, List.nodup_cons, List.mem_cons, not_or] at hnd
    have pass : ∀ {a}, a ∈ g.children p → t ≠ a → (i, j) ∈ g.context.links a := fun ha hne =>
      mem_links_of_operand h hi ha (by simp [parentLinks, hk, hne]) (by simp [formLinks, hk])
    exact hc.of_fires hil hjl (.inl (pass (by simp [children, hk, Kind.children]) hnd.1.1))
      (.inr (pass (by simp [children, hk, Kind.children]) hnd.1.2.1))
  | declarator hi hk =>
    rw [context_graph] at hk
    have pair : ∀ {a}, a ∈ g.children _ → (i, j) ∈ g.context.links a := fun ha =>
      mem_links_of_parent (h.tree.parent_child _ hi _ ha) (by simp [parentLinks, hk])
    exact hc.of_fires hil hjl (.inl (pair (by simp [children, hk, Kind.children])))
      (.inr (pair (by simp [children, hk, Kind.children])))
  | callSite hf hkf hcl hkc hb hn hcal _ =>
    rw [callee hcl hkc]
    exact hc.uniform _ ((Scopes.mem_binding_iff hb).mp hcal).1 _
      (Scopes.mem_occurrences_of_binding hb hcal hn)
  | @argument f name body call callee _ _ params args b hf hkf hcl hkc hb hn hcal hlen hz =>
    rw [context_graph] at hkf hkc
    obtain ⟨hp, ha⟩ := List.of_mem_zip hz
    have hmem := mem_functionLinks_argument h hkf hcl hkc
      (Scopes.mem_occurrences_of_binding hb hn hcal) hlen hz
    refine hc.of_fires hil hjl (.inl ?_) (.inr ?_)
    · refine mem_links_of_parent (h.tree.parent_child f hf i ?_) (by simpa [parentLinks, hkf])
      simp [children, hkf, Kind.children, hp]
    · have hac : j ∈ g.children call := by simp [children, hkc, Kind.children, ha]
      have hne : callee ≠ j := by
        have hnd := h.tree.children_nodup call hcl
        rw [children, hkc] at hnd
        exact fun he => (List.nodup_cons.mp hnd).1 (he ▸ ha)
      have huser : (CallTable.resolve g).target? call = some (.user f) := by
        obtain ⟨-, hkn⟩ := (Scopes.mem_binding_iff hb).mp hn
        obtain ⟨-, hkcal⟩ := (Scopes.mem_binding_iff hb).mp hcal
        exact h.target?_user hf hkf (key?_eq_some.mp hkn).2.1 hcl hkc
          (key?_eq_some.mp hkcal).2.1
      refine mem_links_of_parent (h.tree.parent_child call hcl j hac) ?_
      simpa [parentLinks, hkc, hne, huser]
  | @returned r _ f _ body params hr hkr henc hkf =>
    rw [context_graph] at hkr henc hkf
    have hf : f ∈ g.live := (h.tree.ancestor_below hr (List.mem_of_find?_eq_some henc)).1
    have hmem := mem_functionLinks_returned h hkf hr hkr henc
    refine hc.of_fires hil hjl (.inl ?_) (.inr ?_)
    · refine mem_links_of_parent (h.tree.parent_child f hf i ?_) (by simpa [parentLinks, hkf])
      simp [children, hkf, Kind.children]
    · refine mem_links_of_parent (h.tree.parent_child r hr j ?_) ?_
      · simp [children, hkr, Kind.children]
      · simp [parentLinks, hkr, returnLinks, henc, hkf]

include h in
/-- **Closed types are the same throughout a class.** -/
theorem Closed.same {ty : Id → Option Ty} (hc : g.context.Closed ty) {i j : Id}
    (hij : g.context.Same i j) : ty i = ty j := by
  induction hij with
  | rel i j hij => exact hc.joined h hij
  | refl => rfl
  | symm _ _ _ ih => exact ih.symm
  | trans _ _ _ _ _ ih ih' => exact ih.trans ih'

end Infer.Context

end ShaderScript
