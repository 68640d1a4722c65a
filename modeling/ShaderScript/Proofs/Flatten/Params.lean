import ShaderScript.Proofs.Flatten.Marks

/-!
# The names of parameters

Parameters keep the names that the source gives them. Only one that is spelled `out` in a top-level
function gets another name, and one that a variable belongs with gets the mark of the variable.

* `Graph.IsOut`: a parameter spelled `out` in a top-level function.
* `Graph.markOutParams_eq`: they are renamed one after the other.
* **`identName?_markOutParams`**: what belongs with one of them gets the other name.
* **`identName?_marked_param`**: the name of a parameter that no variable belongs with.
-/

namespace ShaderScript

open Graph

variable {g x : Graph} {f p : Id}

/-- The node is a parameter spelled `out` in a top-level function. -/
def Graph.IsOut (g : Graph) (p : Id) : Prop := ∃ f ∈ g.functions, p ∈ g.outParams f

instance (g : Graph) (p : Id) : Decidable (g.IsOut p) :=
  inferInstanceAs (Decidable (∃ f ∈ g.functions, p ∈ g.outParams f))

theorem Graph.mem_outParams : p ∈ g.outParams f ↔ ∃ name params body,
    g.kind f = .function name params body ∧ p ∈ params ∧ g.identName? p = some "out" := by
  unfold outParams
  constructor
  · intro hp
    split at hp
    case h_1 name params body hk =>
      rw [List.mem_filter, beq_iff_eq] at hp
      exact ⟨name, params, body, hk, hp⟩
    case h_2 => cases hp
  · rintro ⟨name, params, body, hk, hp⟩
    rw [hk]
    simpa using hp

theorem Graph.IsOut.identName? (hp : g.IsOut p) : g.identName? p = some "out" := by
  obtain ⟨f, -, hp⟩ := hp
  obtain ⟨-, -, -, -, -, hout⟩ := mem_outParams.mp hp
  exact hout

theorem Graph.mem_flatMap_outParams : p ∈ g.functions.flatMap g.outParams ↔ g.IsOut p :=
  List.mem_flatMap

/-! ## Parameters spelled `out` -/

/-- Renaming parameters gives the other name to all that belongs with one of them. -/
theorem Graph.identName?_foldl_markOutParam (s : Scopes) (ps : List Id) (x : Graph) (j : Id) :
    (ps.foldl (fun x p => x.markOutParam s p) x).identName? j =
      if (∃ p ∈ ps, j ∈ s.occurrences p) ∧ (x.identName? j).isSome then some outParamName
      else x.identName? j := by
  induction ps generalizing x with
  | nil => simp
  | cons p ps ih =>
    rw [List.foldl_cons, ih, identName?_markOutParam]
    by_cases hj : j ∈ s.occurrences p <;> cases x.identName? j <;> simp [hj]

theorem Graph.outParams_congr (hx : Changed Kind.Renamed g x)
    (hsame : ∀ {name params body}, g.kind f = .function name params body → ∀ p ∈ params,
      x.identName? p = some "out" ↔ g.identName? p = some "out") :
    x.outParams f = g.outParams f := by
  have hk := hx.kind f
  unfold outParams
  generalize hg : g.kind f = k, x.kind f = k' at hk hsame ⊢
  cases hk with
  | ident => rfl
  | refl =>
    cases k with
    | function name params body =>
      refine List.filter_congr fun p hp => ?_
      rw [Bool.eq_iff_iff, beq_iff_eq, beq_iff_eq]
      exact hsame rfl p hp
    | _ => rfl

section Trees

variable (h : g.IsTree)

include h

theorem Graph.IsTree.nodup_functions : g.functions.Nodup := by
  have hroot := h.children_nodup g.root h.root_live
  unfold children at hroot
  unfold functions body
  split
  case h_1 body hk =>
    rw [hk] at hroot
    exact hroot.filter _
  case h_2 => exact List.nodup_nil

theorem key?_param (hf : f ∈ g.live) {fname body : Id} {params : List Id}
    (hk : g.kind f = .function fname params body) (hp : p ∈ params) {name : String}
    (hname : g.identName? p = some name) : g.key? p = some (f, name) :=
  key?_eq_some.mpr ⟨isPropertyName_of_declared h (.inl ⟨f, hf, fname, params, body, hk, hp⟩), hname,
    (Declares.param hk hp).declaringScope h hf hname⟩

theorem key?_of_mem_outParams (hf : f ∈ g.functions) (hp : p ∈ g.outParams f) :
    g.key? p = some (f, "out") := by
  obtain ⟨fname, params, body, hk, hmem, hout⟩ := mem_outParams.mp hp
  exact key?_param h (h.body_live (mem_functions.mp hf).1) hk hmem hout

theorem mem_outParams_of_mem_occurrences {q f' fname body : Id} {params : List Id}
    (hf : f ∈ g.functions) (hq : q ∈ g.outParams f) (hf' : f' ∈ g.live)
    (hk : g.kind f' = .function fname params body) (hp : p ∈ params)
    (hpq : p ∈ (Scopes.resolve g).occurrences q) : f' = f ∧ p ∈ g.outParams f := by
  have hkq := key?_of_mem_outParams h hf hq
  have hkp : g.key? p = some (f, "out") := by
    rcases Scopes.mem_occurrences_iff.mp hpq with rfl | ⟨-, -, k, hkq', hkp⟩
    · exact hkq
    · rw [hkp, ← hkq', hkq]
  have hname := (key?_eq_some.mp hkp).2.1
  rw [key?_param h hf' hk hp hname] at hkp
  cases hkp
  exact ⟨rfl, mem_outParams.mpr ⟨fname, params, body, hk, hp, hname⟩⟩

/-- **Parameters spelled `out` are renamed one after the other**, function by function: those of one
function have nothing to do with those of another. -/
theorem Graph.markOutParams_eq : g.markOutParams (Scopes.resolve g) =
    (g.functions.flatMap g.outParams).foldl (fun x p => x.markOutParam (Scopes.resolve g) p) g := by
  have hall : ∀ before after : List Id, g.functions = before ++ after →
      before.foldl (fun x f => (x.outParams f).foldl
        (fun x p => x.markOutParam (Scopes.resolve g) p) x) g =
      (before.flatMap g.outParams).foldl (fun x p => x.markOutParam (Scopes.resolve g) p) g := by
    intro before
    induction before using List.reverseRecOn with
    | nil => exact fun _ _ => rfl
    | append_singleton before f ih =>
      intro after hsplit
      rw [List.append_assoc, List.singleton_append] at hsplit
      have hnodup := hsplit ▸ h.nodup_functions
      have hmem : ∀ f' ∈ before ++ f :: after, f' ∈ g.functions := fun f' hf' => hsplit ▸ hf'
      simp only [List.foldl_append, List.foldl_cons, List.foldl_nil, List.flatMap_append,
        List.flatMap_singleton]
      rw [ih _ hsplit, outParams_congr]
      · exact Changed.foldl (r := Kind.Renamed) id .refl .trans fun x p _ =>
          changed_markOutParam (Scopes.resolve g) x p
      · intro fname params body hk p hp
        rw [identName?_foldl_markOutParam, if_neg]
        rintro ⟨⟨q, hq, hpq⟩, -⟩
        obtain ⟨f', hf', hq⟩ := List.mem_flatMap.mp hq
        have hfl := h.body_live (mem_functions.mp (hmem f (by simp))).1
        obtain ⟨rfl, -⟩ := mem_outParams_of_mem_occurrences h
          (hmem f' (List.mem_append_left _ hf')) hq hfl hk hp hpq
        exact (List.nodup_append.mp hnodup).2.2 f hf' f List.mem_cons_self rfl
  exact hall g.functions [] (List.append_nil _).symm

/-- **What belongs with a parameter spelled `out` gets the other name**, and nothing else does. -/
theorem identName?_markOutParams (j : Id) :
    (g.markOutParams (Scopes.resolve g)).identName? j =
      if ∃ p ∈ g.functions.flatMap g.outParams, j ∈ (Scopes.resolve g).occurrences p then
        some outParamName
      else g.identName? j := by
  rw [markOutParams_eq h, identName?_foldl_markOutParam]
  refine if_congr ⟨And.left, fun hex => ⟨hex, ?_⟩⟩ rfl rfl
  obtain ⟨p, hp, hj⟩ := hex
  rcases Scopes.mem_occurrences_iff.mp hj with rfl | ⟨-, -, k, -, hkj⟩
  · rw [(mem_flatMap_outParams.mp hp).identName?]
    rfl
  · rw [(key?_eq_some.mp hkj).2.1]
    rfl

end Trees

/-! ## All parameters -/

theorem identName?_marked_of_no_variable {j : Id}
    (hno : ∀ v k, g.IsVariable v → g.key? v = some k → j ∈ g.live → g.key? j ≠ some k) :
    g.marked.identName? j = (g.markOutParams (Scopes.resolve g)).identName? j := by
  have hout := outMarked_markOutParams g
  unfold Graph.marked Graph.markLocals
  refine (List.foldlRecOn (motive := fun x => Changed Kind.Renamed g x ∧
    x.identName? j = (g.markOutParams (Scopes.resolve g)).identName? j) _ _ ⟨hout.changed, rfl⟩
      fun x hx d hd => ?_).2
  rcases x.markLocal_cases (Scopes.resolve g) d with he | ⟨v, init, b, hk, hb, he⟩
  · rw [he]
    exact hx
  rw [he]
  refine ⟨hx.1.trans .trans (changed_renameAll _ _ _), ?_⟩
  have hv : g.IsVariable v :=
    ⟨d, hout.changed.live_eq ▸ hd, init, (hx.1.kind_eq_iff d rfl).mp hk⟩
  have hj : j ∉ b.occurrences := fun hj => by
    obtain ⟨hjl, hkj⟩ := (Scopes.mem_binding_iff (Scopes.bindingOf?_eq_some hb).1).mp hj
    exact hno v b.key hv (Scopes.bindingOf?_key hb) hjl hkj
  rw [identName?_renameAll, if_neg fun hc => hj hc.1, hx.2]

/-- **A parameter that no variable belongs with keeps its name**, unless that is `out` in a
top-level function. -/
theorem identName?_marked_param (h : g.IsTree) (hp : g.IsParam p) {name : String}
    (hname : g.identName? p = some name)
    (hno : ∀ v k, g.IsVariable v → g.key? v = some k → g.key? p ≠ some k) :
    g.marked.identName? p = some (if g.IsOut p then outParamName else name) := by
  have hout : (∃ q ∈ g.functions.flatMap g.outParams, p ∈ (Scopes.resolve g).occurrences q) ↔
      g.IsOut p := by
    refine ⟨?_, fun hout => ⟨p, mem_flatMap_outParams.mpr hout, Scopes.self_mem_occurrences p⟩⟩
    rintro ⟨q, hq, hpq⟩
    obtain ⟨f, hf, hq⟩ := mem_flatMap_outParams.mp hq
    obtain ⟨f', hf', fname, params, body, hk, hparam⟩ := hp
    exact ⟨f, hf, (mem_outParams_of_mem_occurrences h hf hq hf' hk hparam hpq).2⟩
  rw [identName?_marked_of_no_variable fun v k hv hkv _ => hno v k hv hkv,
    identName?_markOutParams h, hname, if_congr hout rfl rfl, apply_ite some]

end ShaderScript
