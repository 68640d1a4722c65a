import ShaderScript.Builder
import ShaderScript.Proofs.Flatten.Marks

/-!
# Whether variables capture inputs

The name of an access is minted before scopes are resolved, so a parameter or a variable with that
very name takes the access for its own. Marks come too late to help: they rename the access together
with the variable. Nothing else ever captures an access.

* `Graph.Uncaptured`: an access has its flat name and belongs to the program, with no parameter or
  variable beside it.
* **`flatten_uncaptured_iff`**: an access stays uncaptured exactly if no declaration of its flat
  name reaches it.
* `flatten_captured_localNamesake`: a variable that captures an access.
-/

namespace ShaderScript

open Graph

/-- A name that no mark gives and that is not renamed for being reserved. -/
def Unmarked (name : String) : Prop :=
  name ≠ "out" ∧ name ≠ outParamName ∧ ∀ m, name ≠ localMark ++ m

/-- Flat names start with the letter of their bucket. -/
theorem Bucket.flatName_unmarked (b : Bucket) (f : String) : Unmarked (b.flatName f) := by
  have hhead : (b.flatName f).toList.head? = b.name.toList.head? := by
    unfold flatName stem
    cases b <;> simp [name]
  refine ⟨fun he => ?_, fun he => ?_, fun m he => ?_⟩
  · rw [he] at hhead
    cases b <;> simp [name] at hhead
  · rw [he] at hhead
    cases b <;> simp [name, outParamName] at hhead
  · rw [he] at hhead
    cases b <;> simp [name, localMark] at hhead

namespace Graph

variable {g : Graph}

/-- In program `r`, made from `g`, the node has the name and belongs to the program itself, and its
binding has no parameter and no variable of `g`. -/
structure Uncaptured (g r : Graph) (i : Id) (name : String) : Prop where
  named : r.identName? i = some name
  bound : ∃ b, (Scopes.resolve r).bindingOf? i = some b ∧ b.scope = r.root ∧
    ∀ j ∈ b.occurrences, ¬ g.IsParam j ∧ ¬ g.IsVariable j

/-! ## What marks do to an unmarked name -/

theorem identName?_of_marked {j : Id} {name : String} (hn : Unmarked name)
    (hj : g.marked.identName? j = some name) : g.identName? j = some name := by
  rcases (marked_marked g).name j with he | ⟨-, he⟩ | ⟨v, k, -, -, -, he⟩
  · rw [← he, hj]
  · rw [hj] at he
    exact absurd (Option.some.inj he) hn.2.1
  · rw [hj] at he
    exact absurd (Option.some.inj he) (hn.2.2 k.2)

/-- Marks move no identifier whose scope keeps a declaration of its name. -/
theorem declaringScope_marked {i : Id} {name : String} (hn : Unmarked name)
    (hold : g.declares name (g.declaringScope i name) = true →
      g.marked.declares name (g.declaringScope i name) = true) :
    g.marked.declaringScope i name = g.declaringScope i name :=
  (marked_marked g).changed.declaringScope_eq (fun _ => identName?_of_marked hn) hold

section Trees

variable (h : g.IsTree)

include h

theorem declaringScope_live {i : Id} (hi : i ∈ g.live) (name : String) :
    g.declaringScope i name ∈ g.live := by
  unfold declaringScope
  cases hf : (g.ancestors i).find? (g.declares name) with
  | none => exact h.root_live
  | some a => exact (h.ancestor_below hi (List.mem_of_find?_eq_some hf)).1

theorem exists_declared {i : Id} {name : String} (hi : i ∈ g.live)
    (hd : g.declares name (g.declaringScope i name) = true) :
    ∃ j, (g.IsParam j ∨ g.IsVariable j) ∧ g.key? j = some (g.declaringScope i name, name) := by
  have ha := declaringScope_live h hi name
  obtain ⟨j, hj, hname⟩ := declares_iff.mp hd
  have hdecl := hj.param_or_variable h ha
  exact ⟨j, hdecl, key?_eq_some.mpr
    ⟨isPropertyName_of_declared h hdecl, hname, hj.declaringScope h ha hname⟩⟩

theorem key?_of_declared {j : Id} {name : String} (hj : g.IsParam j ∨ g.IsVariable j)
    (hname : g.identName? j = some name) : g.key? j = some (g.declaringScope j name, name) :=
  key?_eq_some.mpr ⟨isPropertyName_of_declared h hj, hname, rfl⟩

theorem exists_identName?_marked_variable {j : Id} {name : String} (hv : g.IsVariable j)
    (hj : g.marked.identName? j = some name) : ∃ bare, name = localMark ++ bare := by
  obtain ⟨bare, hbare⟩ : ∃ bare, g.identName? j = some bare := by
    rw [← Option.isSome_iff_exists, ← (marked_marked g).changed.isSome_identName?, hj]
    rfl
  have hkey := key?_of_declared h (.inr hv) hbare
  rw [identName?_of_variable h hv hkey (hv.live h) hkey] at hj
  exact ⟨bare, (Option.some.inj hj).symm⟩

theorem not_isVariable_of_unmarked {j : Id} {name : String} (hn : Unmarked name)
    (hj : g.marked.identName? j = some name) : ¬ g.IsVariable j := by
  intro hv
  obtain ⟨bare, hbare⟩ := exists_identName?_marked_variable h hv hj
  exact hn.2.2 bare hbare

theorem declaringScope_marked_param {j : Id} {name : String} (hn : Unmarked name)
    (hj : g.IsParam j) (hname : g.marked.identName? j = some name) :
    g.marked.declares name (g.declaringScope j name) = true := by
  obtain ⟨f, hf, fname, params, body, hk, hp⟩ := hj
  have hdecl : g.Declares f j := .param hk hp
  rw [hdecl.declaringScope h hf (identName?_of_marked hn hname)]
  exact declares_iff.mpr ⟨j, (marked_marked g).changed.declares_iff.mpr hdecl, hname⟩

theorem uncaptured_of_undeclared {i : Id} {name : String} {k : Id × String} (hn : Unmarked name)
    (hi : i ∈ g.live) (hname : g.identName? i = some name) (hki : g.key? i = some k)
    (hno : ∀ j, g.IsParam j ∨ g.IsVariable j → g.key? j ≠ some k) :
    g.Uncaptured g.marked i name := by
  have hc := (marked_marked g).changed
  obtain ⟨hprop, hname', hscope⟩ := key?_eq_some.mp hki
  obtain ⟨a, n⟩ := k
  obtain rfl : n = name := Option.some.inj (hname'.symm.trans hname)
  change g.declaringScope i n = a at hscope
  have hnot : g.declares n (g.declaringScope i n) ≠ true := by
    intro hd
    obtain ⟨j, hj, hkj⟩ := exists_declared h hi hd
    exact hno j hj (hscope ▸ hkj)
  -- nothing around the node declares its name, so it belongs to the program
  have hroot : a = g.root := by
    rw [← hscope]
    unfold declaringScope at hnot ⊢
    cases hf : (g.ancestors i).find? (g.declares n) with
    | none => rfl
    | some c =>
      rw [hf] at hnot
      exact absurd (List.find?_some hf) hnot
  have hnamed : g.marked.identName? i = some n :=
    identName?_of_no_variable hname hn.1 fun v k hv hkv hk => by
      rw [hki] at hk
      cases hk
      exact hno v (.inr hv) hkv
  have hkey : g.marked.key? i = some (a, n) := by
    refine key?_eq_some.mpr ⟨by rw [hc.isPropertyName_eq, hprop], hnamed, ?_⟩
    rw [declaringScope_marked hn fun hd => absurd hd hnot, hscope]
  obtain ⟨b, hb, hbk⟩ := Scopes.exists_bindingOf? (hc.live_eq ▸ hi) hkey
  refine ⟨hnamed, b, hb, ?_, fun j hj => ?_⟩
  · rw [hc.root, ← hroot]
    exact congrArg Prod.fst hbk
  · obtain ⟨hjl, hkj⟩ := (Scopes.mem_binding_iff (Scopes.bindingOf?_eq_some hb).1).mp hj
    rw [hbk] at hkj
    obtain ⟨-, hnj, hsj⟩ := key?_eq_some.mp hkj
    refine ⟨fun hp => ?_, not_isVariable_of_unmarked h hn hnj⟩
    have hdecl := declaringScope_marked_param h hn hp hnj
    rw [declaringScope_marked hn fun _ => hdecl] at hsj
    refine hno j (.inl hp) ?_
    rw [key?_of_declared h (.inl hp) (identName?_of_marked hn hnj), hsj]

theorem undeclared_of_uncaptured {i j : Id} {name : String} {k : Id × String} (hn : Unmarked name)
    (hi : i ∈ g.live) (hu : g.Uncaptured g.marked i name) (hki : g.key? i = some k)
    (hj : g.IsParam j ∨ g.IsVariable j) : g.key? j ≠ some k := by
  have hc := (marked_marked g).changed
  obtain ⟨hnamed, b, hb, -, hfree⟩ := hu
  have hname := identName?_of_marked hn hnamed
  have novar : ∀ v, g.IsVariable v → g.key? v ≠ some k := by
    intro v hv hkv
    rw [identName?_of_variable h hv hkv hi hki] at hnamed
    exact hn.2.2 _ (Option.some.inj hnamed).symm
  intro hkj
  rcases hj with hp | hv
  · obtain ⟨a, n⟩ := k
    obtain ⟨-, hni, hsi⟩ := key?_eq_some.mp hki
    obtain ⟨-, hnj, hsj⟩ := key?_eq_some.mp hkj
    obtain rfl : n = name := Option.some.inj (hni.symm.trans hname)
    have hnj' : g.marked.identName? j = some n :=
      identName?_of_no_variable hnj hn.1 fun v k hv hkv hk => by
        rw [hkj] at hk
        cases hk
        exact novar v hv hkv
    have hdecl := declaringScope_marked_param h hn hp hnj'
    -- the parameter and the node still belong to the same function
    have hkj' : g.marked.key? j = some b.key := by
      rw [← Scopes.bindingOf?_key hb]
      have hprop := (key?_eq_some.mp (Scopes.bindingOf?_key hb)).1
      have hi' : g.marked.key? i = some (a, n) := by
        refine key?_eq_some.mpr ⟨hprop, hnamed, ?_⟩
        rw [declaringScope_marked hn fun _ => by rw [hsi, ← hsj]; exact hdecl, hsi]
      rw [hi']
      refine key?_eq_some.mpr ⟨?_, hnj', ?_⟩
      · rw [hc.isPropertyName_eq]
        exact isPropertyName_of_declared h (.inl hp)
      · rw [declaringScope_marked hn fun _ => hdecl, hsj]
    have hjb : j ∈ b.occurrences := by
      refine (Scopes.mem_binding_iff (Scopes.bindingOf?_eq_some hb).1).mpr ⟨?_, hkj'⟩
      rw [hc.live_eq]
      exact hp.live h
    exact (hfree j hjb).1 hp
  · exact novar j hv hkj

/-- **Marks keep an identifier uncaptured exactly if nothing is declared under its key.** -/
theorem uncaptured_marked_iff {i : Id} {name : String} (hn : Unmarked name) (hi : i ∈ g.live)
    (hname : g.identName? i = some name) :
    g.Uncaptured g.marked i name ↔
      ∃ k, g.key? i = some k ∧ ∀ j, g.IsParam j ∨ g.IsVariable j → g.key? j ≠ some k := by
  constructor
  · intro hu
    obtain ⟨b, hb, -⟩ := hu.bound
    have hprop := (key?_eq_some.mp (Scopes.bindingOf?_key hb)).1
    rw [(marked_marked g).changed.isPropertyName_eq] at hprop
    have hki : g.key? i = some (g.declaringScope i name, name) :=
      key?_eq_some.mpr ⟨hprop, hname, rfl⟩
    exact ⟨_, hki, fun j hj => undeclared_of_uncaptured h hn hi hu hki hj⟩
  · rintro ⟨k, hki, hno⟩
    exact uncaptured_of_undeclared h hn hi hname hki hno

end Trees

/-! ## Declarations of the flat program -/

section Declared

variable (h : g.IsTree) (e : EntryPoints) {j : Id}

include h

theorem isVariable_flat (hj : j ∈ (g.flat e).live) :
    (g.flat e).IsVariable j ↔ g.IsVariable j := by
  have hc := changed_flat h e
  constructor
  · rintro ⟨d, hd, init, hk⟩
    refine ⟨d, hc.live_of_live Kind.Flattened.sublist hd, init, ?_⟩
    have hkd := hc.kind d
    rw [hk] at hkd
    generalize g.kind d = k at hkd ⊢
    cases hkd
    rfl
  · rintro ⟨d, hd, init, hk⟩
    have hchild : j ∈ g.children d := by
      rw [children, hk]
      exact List.mem_cons_self
    have hp : (g.flat e).parent? j = some d := by
      rw [hc.parent, h.parent_child d hd j hchild]
    refine ⟨d, ((isTree_flat h e).parent_live hj hp).1, init, ?_⟩
    have hkd := hc.kind d
    rw [hk] at hkd
    generalize (g.flat e).kind d = k at hkd ⊢
    cases hkd
    rfl

theorem isParam_flat (hj : j ∈ (g.flat e).live) : (g.flat e).IsParam j ↔ g.IsParam j := by
  have hc := changed_flat h e
  constructor
  · rintro ⟨f, hf, name, params, body, hk, hp⟩
    refine ⟨f, hc.live_of_live Kind.Flattened.sublist hf, name, params, body, ?_, hp⟩
    have hkf := hc.kind f
    rw [hk] at hkf
    generalize g.kind f = k at hkf ⊢
    cases hkf with
    | refl => rfl
    | entry => cases hp
  · rintro ⟨f, hf, name, params, body, hk, hp⟩
    have hchild : j ∈ g.children f := by
      rw [children, hk]
      exact List.mem_cons_of_mem _ (List.mem_append_left _ hp)
    have hpar : (g.flat e).parent? j = some f := by
      rw [hc.parent, h.parent_child f hf j hchild]
    obtain ⟨hfl, hjf⟩ := (isTree_flat h e).parent_live hj hpar
    refine ⟨f, hfl, name, params, body, ?_, hp⟩
    have hnodup := h.children_nodup f hf
    have hkf := hc.kind f
    rw [children, hk] at hnodup
    rw [children] at hjf
    rw [hk] at hkf
    generalize (g.flat e).kind f = k at hkf hjf ⊢
    cases hkf with
    | refl => rfl
    | entry =>
      -- a dropped parameter is no longer part of the program
      exfalso
      simp only [Kind.children, List.nil_append, List.mem_cons, List.not_mem_nil, or_false] at hjf
      simp only [Kind.children, List.nodup_cons, List.mem_append, List.mem_singleton, not_or,
        List.nodup_append] at hnodup
      rcases hjf with rfl | rfl
      · exact hnodup.1.1 hp
      · exact hnodup.2.2.2 j hp j rfl rfl

end Declared

end Graph

variable {g : Graph}

/-- **An access stays uncaptured exactly if no declaration of its flat name reaches it**: in the
flat program it stands for a variable, and no parameter and no variable has its scope and name. -/
theorem flatten_uncaptured_iff (h : g.IsTree) (e : EntryPoints) {i : Id} {b : Bucket} {f : String}
    (hi : i ∈ (flatten g e).graph.live) (ha : g.Access i b f) :
    g.Uncaptured (flatten g e).graph i (b.flatName f) ↔
      ∃ k, (g.flat e).key? i = some k ∧
        ∀ j, (g.flat e).IsParam j ∨ (g.flat e).IsVariable j → (g.flat e).key? j ≠ some k := by
  have hc := (marked_marked (g.flat e)).changed
  rw [flatten_graph] at hi ⊢
  rw [hc.live_eq] at hi
  rw [← uncaptured_marked_iff (isTree_flat h e) (b.flatName_unmarked f) hi
    (identName?_eq_some.mpr (kind_flat_access h e hi ha))]
  -- what is declared in the flat program is what the source declares there
  have declared : ∀ {b : Binding}, b ∈ (Scopes.resolve (g.flat e).marked).bindings →
      ∀ j ∈ b.occurrences, (¬ (g.flat e).IsParam j ∧ ¬ (g.flat e).IsVariable j ↔
        ¬ g.IsParam j ∧ ¬ g.IsVariable j) := by
    intro b hb j hj
    have hjl : j ∈ (g.flat e).live := hc.live_eq ▸ ((Scopes.mem_binding_iff hb).mp hj).1
    rw [isParam_flat h e hjl, isVariable_flat h e hjl]
  constructor
  · rintro ⟨hnamed, b, hb, hroot, hfree⟩
    exact ⟨hnamed, b, hb, hroot, fun j hj =>
      (declared (Scopes.bindingOf?_eq_some hb).1 j hj).mpr (hfree j hj)⟩
  · rintro ⟨hnamed, b, hb, hroot, hfree⟩
    exact ⟨hnamed, b, hb, hroot, fun j hj =>
      (declared (Scopes.bindingOf?_eq_some hb).1 j hj).mp (hfree j hj)⟩

/-- The program
`function VertexPosition(attributes_x) { var x = this.attributes.x; }
function FragmentColor() {}`. -/
def droppedNamesake : Graph := Build.finish do
  let param ← Build.ident "attributes_x"
  let access ← Build.field (← Build.field (← Build.node .this) "attributes") "x"
  let var ← Build.node (.varDecl [← Build.node (.declarator (← Build.ident "x") (some access))])
  let body ← Build.node (.block [var])
  Build.statement (← Build.node (.function (← Build.ident "VertexPosition") [param] body))
  let empty ← Build.node (.block [])
  Build.statement (← Build.node (.function (← Build.ident "FragmentColor") [] empty))

/-- A parameter of an entry point captures nothing, because it is dropped. -/
theorem flatten_uncaptured_droppedNamesake : ∃ e, EntryPoints.locate droppedNamesake = .ok e ∧
    droppedNamesake.IsTree ∧ 5 ∈ (flatten droppedNamesake e).graph.live ∧
    droppedNamesake.Access 5 .attributes "x" ∧
    droppedNamesake.Uncaptured (flatten droppedNamesake e).graph 5 "attributes_x" := by
  have h : droppedNamesake.IsTree := by decide +kernel
  have hi : 5 ∈ (flatten droppedNamesake ⟨11, 14, none⟩).graph.live := by decide +kernel
  have ha : droppedNamesake.Access 5 .attributes "x" :=
    ⟨3, 4, by decide +kernel, by decide +kernel,
      .inr ⟨1, 2, by decide +kernel, by decide +kernel, by decide +kernel⟩⟩
  refine ⟨⟨11, 14, none⟩, by decide +kernel, h, hi, ha,
    (flatten_uncaptured_iff h ⟨11, 14, none⟩ hi ha).mpr
      ⟨(15, "attributes_x"), by decide +kernel, ?_⟩⟩
  have live : ∀ j ∈ (droppedNamesake.flat ⟨11, 14, none⟩).live,
      (droppedNamesake.flat ⟨11, 14, none⟩).IsParam j ∨
        (droppedNamesake.flat ⟨11, 14, none⟩).IsVariable j →
      (droppedNamesake.flat ⟨11, 14, none⟩).key? j ≠ some (15, "attributes_x") := by
    decide +kernel
  intro j hj
  exact live j (hj.elim (·.live (isTree_flat h _)) (·.live (isTree_flat h _))) hj

/-- The program `function VertexPosition() { var attributes_x; attributes.x; }
function FragmentColor() {}`. -/
def localNamesake : Graph := Build.finish do
  let var ← Build.node (.varDecl [← Build.node (.declarator (← Build.ident "attributes_x") none)])
  let access ← Build.field (← Build.ident "attributes") "x"
  let body ← Build.node (.block [var, ← Build.node (.exprStmt access)])
  Build.statement (← Build.node (.function (← Build.ident "VertexPosition") [] body))
  let empty ← Build.node (.block [])
  Build.statement (← Build.node (.function (← Build.ident "FragmentColor") [] empty))

/-- **A variable with the flat name of an input captures it**, and the access ends up with the mark
of the variable. -/
theorem flatten_captured_localNamesake : ∃ e, EntryPoints.locate localNamesake = .ok e ∧
    localNamesake.IsTree ∧ 5 ∈ (flatten localNamesake e).graph.live ∧
    localNamesake.Access 5 .attributes "x" ∧
    (flatten localNamesake e).graph.identName? 5 = some "_local_attributes_x" ∧
    ¬ localNamesake.Uncaptured (flatten localNamesake e).graph 5 "attributes_x" := by
  have hname : (flatten localNamesake ⟨9, 12, none⟩).graph.identName? 5 =
      some "_local_attributes_x" := by decide +kernel
  refine ⟨⟨9, 12, none⟩, by decide +kernel, by decide +kernel, by decide +kernel,
    ⟨3, 4, by decide +kernel, by decide +kernel, .inl (by decide +kernel)⟩, hname, fun hu => ?_⟩
  have heq := hu.named.symm.trans hname
  revert heq
  decide

end ShaderScript
