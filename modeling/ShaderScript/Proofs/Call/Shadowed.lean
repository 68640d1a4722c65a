import ShaderScript.Builder
import ShaderScript.Proofs.Call.Table
import ShaderScript.Proofs.Flatten.Capture

/-!
# Calls through shadowed names

A call counts as one of a top-level function as soon as its callee has the name of that function.
Scopes are not asked, so the callee may belong to a parameter of that name.

* `Graph.DeclaredAround`: something nearer than the program declares a name around a node.
* `Graph.CallsByName`: all that makes a call count as one of a function.
* `Graph.CallsByName.mem_occurrences_iff`: when callee and function are the same variable.
* **`target_user_bound_iff`**: the same for flat programs, where only parameters and marked
  variables shadow anything.
* `target_user_unbound_shadowedHelper`: a call through a parameter that counts as one of a function.
-/

namespace ShaderScript

namespace Graph

variable {g : Graph} {i c f : Id} {name : String}

/-! ## Names declared around a node -/

/-- A node around this one declares the name, and it is not the program itself. -/
def DeclaredAround (g : Graph) (i : Id) (name : String) : Prop :=
  ∃ a ∈ g.ancestors i, a ≠ g.root ∧ g.declares name a = true

instance (g : Graph) (i : Id) (name : String) : Decidable (g.DeclaredAround i name) :=
  inferInstanceAs (Decidable (∃ a ∈ g.ancestors i, a ≠ g.root ∧ g.declares name a = true))

section Trees

variable (h : g.IsTree)

include h

theorem not_declaredAround_root : ¬ g.DeclaredAround g.root name := by
  have hnone : g.ancestors g.root = [] := by
    unfold ancestors
    rw [h.parent_root]
    cases g.size <;> rfl
  rintro ⟨a, ha, -⟩
  rw [hnone] at ha
  cases ha

theorem declaredAround_child (hi : i ∈ g.live) (hc : c ∈ g.children i) :
    g.DeclaredAround c name ↔ i ≠ g.root ∧ g.declares name i = true ∨ g.DeclaredAround i name := by
  unfold DeclaredAround
  rw [h.ancestors_eq_cons (h.child_live hi hc) (h.parent_child i hi c hc)]
  simp

/-- **A name that nothing shadows belongs to the program.** -/
theorem declaringScope_eq_root_iff (hi : i ∈ g.live) :
    g.declaringScope i name = g.root ↔ ¬ g.DeclaredAround i name := by
  obtain ⟨d, hd⟩ := h.mem_live_iff.mp hi
  induction hd with
  | refl =>
    refine ⟨fun _ => not_declaredAround_root h, fun _ => ?_⟩
    unfold declaringScope ancestors
    rw [h.parent_root]
    cases g.size <;> rfl
  | @step d j c hd hc ih =>
    have hj : j ∈ g.live := h.mem_live_iff.mpr ⟨d, hd⟩
    rw [declaringScope_child h hj hc, declaredAround_child h hj hc]
    by_cases hdecl : g.declares name j = true
    · rw [if_pos hdecl]
      by_cases hroot : j = g.root
      · subst hroot
        simp [not_declaredAround_root h]
      · simp [hroot, hdecl]
    · rw [if_neg hdecl, ih hj]
      simp [hdecl]

end Trees

/-! ## Calls by name -/

/-- A call counts as one of a function: the callee has a name, and the function is the first one of
the program that is declared by it. -/
structure CallsByName (g : Graph) (call f callee fname : Id) (name : String) : Prop where
  live : call ∈ g.live
  call : ∃ args, g.kind call = .call callee args
  function : ∃ params body, g.kind f = .function fname params body
  callee_name : g.identName? callee = some name
  function_name : g.identName? fname = some name
  found : g.findFunction? name = some f

theorem exists_callsByName {call : Id}
    (ht : (CallTable.resolve g).target? call = some (.user f)) :
    ∃ callee fname name, g.CallsByName call f callee fname name := by
  obtain ⟨hlive, callee, args, hk, hv⟩ := CallTable.target?_call ht
  obtain ⟨name, hname, hfound⟩ := Option.bind_eq_some_iff.mp (verdict_user_iff.mp hv)
  have hmatch := List.find?_some hfound
  have hfname : g.functionName? f = some name := eq_of_beq hmatch
  unfold functionName? at hfname
  split at hfname
  case h_1 fname params body hkf =>
    exact ⟨callee, fname, name, hlive, ⟨args, hk⟩, ⟨params, body, hkf⟩, hname, hfname, hfound⟩
  case h_2 => cases hfname

namespace CallsByName

variable {call callee fname : Id} (hc : g.CallsByName call f callee fname name)

include hc

theorem mem_functions : f ∈ g.functions := List.mem_of_find?_eq_some hc.found

variable (h : g.IsTree)

include h

theorem key?_callee : callee ∈ g.live ∧
    g.key? callee = some (g.declaringScope callee name, name) := by
  obtain ⟨args, hk⟩ := hc.call
  have hchild : callee ∈ g.children call := by
    rw [children, hk]
    exact List.mem_cons_self
  have hprop : g.isPropertyName callee = false := by
    unfold isPropertyName
    rw [h.parent_child call hc.live callee hchild, Option.map_some, hk]
  exact ⟨h.child_live hc.live hchild, key?_eq_some.mpr ⟨hprop, hc.callee_name, rfl⟩⟩

/-- The name of a function belongs to the program, unless the function has a parameter of that
name. -/
theorem key?_function : fname ∈ g.live ∧
    g.key? fname = some (if g.declares name f then f else g.root, name) := by
  obtain ⟨params, body, hk⟩ := hc.function
  have hbody := (Graph.mem_functions.mp hc.mem_functions).1
  have hfl := h.body_live hbody
  have hchild : fname ∈ g.children f := by
    rw [children, hk]
    exact List.mem_cons_self
  have hprop : g.isPropertyName fname = false := by
    unfold isPropertyName
    rw [h.parent_child f hfl fname hchild, Option.map_some, hk]
  have hroot : g.declaringScope f name = g.root := by
    refine (declaringScope_eq_root_iff h hfl).mpr ?_
    rw [declaredAround_child h h.root_live (body_subset_children hbody)]
    rintro (⟨hne, -⟩ | hs)
    · exact hne rfl
    · exact not_declaredAround_root h hs
  refine ⟨h.child_live hfl hchild, key?_eq_some.mpr ⟨hprop, hc.function_name, ?_⟩⟩
  rw [declaringScope_child h hfl hchild, hroot]

/-- **Callee and function are the same variable exactly if nothing shadows the callee**, or, where
the function has a parameter of its own name, if both belong to that parameter. -/
theorem mem_occurrences_iff : callee ∈ (Scopes.resolve g).occurrences fname ↔
    if g.declares name f then g.declaringScope callee name = f
    else ¬ g.DeclaredAround callee name := by
  obtain ⟨hcl, hkc⟩ := hc.key?_callee h
  obtain ⟨hfl, hkf⟩ := hc.key?_function h
  have hscope : callee ∈ (Scopes.resolve g).occurrences fname ↔
      g.declaringScope callee name = if g.declares name f then f else g.root := by
    rw [Scopes.mem_occurrences_iff, hkc, hkf]
    constructor
    · rintro (rfl | ⟨-, -, k, hk, hk'⟩)
      · rw [hkf] at hkc
        exact (congrArg Prod.fst (Option.some.inj hkc)).symm
      · exact congrArg Prod.fst (Option.some.inj (hk'.trans hk.symm))
    · exact fun he => .inr ⟨hfl, hcl, _, rfl, by rw [he]⟩
  rw [hscope]
  split_ifs
  · rfl
  · exact declaringScope_eq_root_iff h hcl

end CallsByName

end Graph

open Graph

/-! ## Flat programs -/

theorem declaredAround_flatten {g : Graph} (h : g.IsTree) {e : EntryPoints} {i : Id} {name : String}
    (hi : i ∈ (flatten g e).graph.live) (hs : (flatten g e).graph.DeclaredAround i name) :
    (∃ f ∈ (flatten g e).graph.ancestors i, ∃ fname params body,
      (flatten g e).graph.kind f = .function fname params body ∧
        ∃ p ∈ params, (flatten g e).graph.identName? p = some name) ∨
      ∃ bare, name = localMark ++ bare := by
  rw [flatten_graph] at hi hs ⊢
  have hflat := isTree_flat h e
  have hmarked := (marked_marked (g.flat e)).changed
  obtain ⟨a, ha, -, hd⟩ := hs
  obtain ⟨j, hj, hname⟩ := declares_iff.mp hd
  have hal := ((hmarked.isTree_of_renamed hflat).ancestor_below hi ha).1
  cases hj with
  | param hk hp => exact .inl ⟨a, ha, _, _, _, hk, _, hp, hname⟩
  | @var stmt d ds init hs hk hd hkd =>
    have hv : (g.flat e).IsVariable j := by
      have ht := hmarked.isTree_of_renamed hflat
      have hstmt := ht.child_live hal hs.child
      have hdl : d ∈ (g.flat e).marked.live := ht.child_live hstmt (by rw [children, hk]; exact hd)
      exact ⟨d, hmarked.live_eq ▸ hdl, init, (hmarked.kind_eq_iff d rfl).mp hkd⟩
    exact .inr (exists_identName?_marked_variable hflat hv hname)

/-- **When a call of a top-level function is one.** Any call through the name of the function
counts. In a flat program, callee and function are the same variable exactly if nothing shadows the
callee, which only parameters and marked variables do; a function with a parameter of its own name
is the same variable as the callees that belong to that parameter. -/
theorem target_user_bound_iff {g : Graph} (h : g.IsTree) (e : EntryPoints) {call f : Id}
    (ht : (CallTable.resolve (flatten g e).graph).target? call = some (.user f)) :
    ∃ callee fname name, (flatten g e).graph.CallsByName call f callee fname name ∧
      (callee ∈ (Scopes.resolve (flatten g e).graph).occurrences fname ↔
        if (flatten g e).graph.declares name f then
          (flatten g e).graph.declaringScope callee name = f
        else ¬ (flatten g e).graph.DeclaredAround callee name) ∧
      ((flatten g e).graph.DeclaredAround callee name →
        (∃ a ∈ (flatten g e).graph.ancestors callee, ∃ aname params body,
          (flatten g e).graph.kind a = .function aname params body ∧
            ∃ p ∈ params, (flatten g e).graph.identName? p = some name) ∨
        ∃ bare, name = localMark ++ bare) := by
  obtain ⟨callee, fname, name, hc⟩ := exists_callsByName ht
  have htree : (flatten g e).graph.IsTree := by
    rw [flatten_graph]
    exact (marked_marked _).changed.isTree_of_renamed (isTree_flat h e)
  exact ⟨callee, fname, name, hc, hc.mem_occurrences_iff htree,
    declaredAround_flatten h (hc.key?_callee htree).1⟩

/-- The program `function g(x) { return x; } function f(g) { return g(1); }` with
`function VertexPosition() { return f(1); } function FragmentColor() {}`. -/
def shadowedHelper : Graph := Build.finish do
  let _ ← Build.function "g" ["x"] [← Build.ret (some (← Build.ident "x"))]
  let inner ← Build.call (← Build.ident "g") [← Build.num "1"]
  let _ ← Build.function "f" ["g"] [← Build.ret (some inner)]
  let outer ← Build.call (← Build.ident "f") [← Build.num "1"]
  let _ ← Build.function "VertexPosition" [] [← Build.ret (some outer)]
  let _ ← Build.function "FragmentColor" [] []

/-- The flat form of the program. -/
def shadowedHelperFlat : Graph := (flatten shadowedHelper ⟨20, 23, none⟩).graph

/-- The call of `f` is one: nothing shadows its callee. -/
theorem target_user_bound_iff_shadowedHelper :
    EntryPoints.locate shadowedHelper = .ok ⟨20, 23, none⟩ ∧ shadowedHelper.IsTree ∧
    (CallTable.resolve shadowedHelperFlat).target? 16 = some (.user 13) ∧
    ∃ callee fname name, shadowedHelperFlat.CallsByName 16 13 callee fname name ∧
      callee ∈ (Scopes.resolve shadowedHelperFlat).occurrences fname := by
  have h : shadowedHelper.IsTree := by decide +kernel
  have ht : (CallTable.resolve shadowedHelperFlat).target? 16 = some (.user 13) := by
    decide +kernel
  obtain ⟨callee, fname, name, hc, hbound, -⟩ := target_user_bound_iff h ⟨20, 23, none⟩ ht
  change shadowedHelperFlat.CallsByName 16 13 callee fname name at hc
  change _ ↔ if shadowedHelperFlat.declares name 13 then _
    else ¬ shadowedHelperFlat.DeclaredAround callee name at hbound
  obtain ⟨args, hk⟩ := hc.call
  have hcallee : shadowedHelperFlat.kind 16 = .call 14 [15] := by decide +kernel
  have hname : shadowedHelperFlat.identName? 14 = some "f" := by decide +kernel
  have hfree : ¬ shadowedHelperFlat.declares "f" 13 = true ∧
      ¬ shadowedHelperFlat.DeclaredAround 14 "f" := by decide +kernel
  rw [hcallee] at hk
  cases hk
  have hsame := hc.callee_name
  rw [hname] at hsame
  cases hsame
  rw [if_neg hfree.1] at hbound
  exact ⟨by decide +kernel, h, ht, 14, fname, "f", hc, hbound.mpr hfree.2⟩

/-- **The call of `g` in `f` is none**, but it counts as one: the callee belongs to the parameter of
`f`, and the name of the function to the program. -/
theorem target_user_unbound_shadowedHelper :
    EntryPoints.locate shadowedHelper = .ok ⟨20, 23, none⟩ ∧ shadowedHelper.IsTree ∧
    (CallTable.resolve shadowedHelperFlat).target? 8 = some (.user 5) ∧
    shadowedHelperFlat.kind 8 = .call 6 [7] ∧ shadowedHelperFlat.kind 5 = .function 2 [3] 4 ∧
    6 ∉ (Scopes.resolve shadowedHelperFlat).occurrences 2 ∧
    (Scopes.resolve shadowedHelperFlat).bindings.filter (·.name == "g") =
      [⟨"g", 24, [2]⟩, ⟨"g", 13, [11, 6]⟩] := by
  decide +kernel

end ShaderScript
