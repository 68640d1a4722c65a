import ShaderScript.Builder
import ShaderScript.Proofs.Compile.Passes
import ShaderScript.Proofs.Flatten.Types
import ShaderScript.Proofs.Infer.Uniform
import ShaderScript.Proofs.Lower.Arguments
import ShaderScript.Proofs.Lower.Facts

/-!
# The types that inputs are declared with

An input is declared with the type of its identifiers, and these are looked up when calls have
already been written in their forms. Where all of them have lost their place by then, the input is
declared as a number, whatever inference has found.

* `Definition.Names`: an identifier of the flat program has a name.
* `Definition.InferredAs`: the type that inference gives to a name.
* `Definition.Dropped`: a node is part of a first argument that has lost its place.
* `Definition.names_lowered_iff`: the identifiers that are left.
* `Definition.declared_type_cases`: the type of an input comes from one of them.
* **`declared_type_iff_kept`**: an input has the inferred type exactly if that is a number or an
  identifier of that type is left.
* `declared_type_droppedUniform`: an input that is declared with another type.
-/

namespace ShaderScript

open Graph

/-! ## Flat names -/

theorem Known.underscore_notMem_name {e : Known.Entry} (he : e ∈ Known.catalog) :
    '_' ∉ e.name.toList := by
  have hall : ∀ e ∈ Known.catalog, '_' ∉ e.name.toList := by decide +kernel
  exact hall e he

namespace Bucket

theorem underscore_mem_flatName (b : Bucket) (f : String) : '_' ∈ (b.flatName f).toList := by
  have hstem : '_' ∈ b.stem.toList := by cases b <;> decide
  rw [flatName, String.toList_append]
  exact List.mem_append_left _ hstem

theorem isReserved_flatName (b : Bucket) (f : String) :
    Known.isReserved (b.flatName f) = false := by
  have hlisted : ∀ b ∈ all, ∀ name ∈ Known.reservedNames, after? b.stem name = none := by
    decide +kernel
  have hgl : after? "gl_" (b.flatName f) = none := by
    unfold after? flatName
    rw [String.toList_append]
    cases b <;> rfl
  unfold Known.isReserved
  rw [hgl, Option.isSome_none, Bool.false_or, Bool.eq_false_iff]
  intro hmem
  have hnone := hlisted b (by cases b <;> decide) _ (List.contains_iff_mem.mp hmem)
  rw [flatName, after?_append] at hnone
  cases hnone

end Bucket

/-! ## Looking up a type -/

/-- The type that is found for a name is that of an identifier with that name, if any has one. -/
theorem BucketFields.typeOfName_cases (g : Graph) (name : String) :
    (∃ i ∈ g.live, g.identName? i = some name ∧ g.ty? i = some (typeOfName g name)) ∨
    (∀ i ∈ g.live, g.identName? i = some name → g.ty? i = none) ∧ typeOfName g name = .float := by
  unfold typeOfName
  cases hf : g.live.findSome? fun i => if g.identName? i == some name then g.ty? i else none with
  | some t =>
    obtain ⟨i, hi, ht⟩ := List.exists_of_findSome?_eq_some hf
    split_ifs at ht with hname
    exact .inl ⟨i, hi, eq_of_beq hname, ht⟩
  | none =>
    refine .inr ⟨fun i hi hname => ?_, rfl⟩
    have hnone := List.findSome?_eq_none_iff.mp hf i hi
    rwa [if_pos (by rw [hname]; exact beq_self_eq_true _)] at hnone

theorem BucketFields.declarations_ty (fs : BucketFields) (g : Graph) :
    ∀ d ∈ fs.declarations g, d.ty = typeOfName g d.name := by
  intro d hd
  obtain ⟨p, -, rfl⟩ := List.mem_map.mp hd
  rfl

namespace Definition

variable {g : Graph} {d : Definition} {b : Bucket} {f : String} {i : Id}

/-! ## Identifiers that lose their place -/

/-- The identifier of the flat program has the name. -/
def Names (d : Definition) (i : Id) (name : String) : Prop :=
  i ∈ d.desugared.live ∧ d.desugared.identName? i = some name

/-- Inference gives the type to an identifier with the name, and no other type to any. -/
structure InferredAs (d : Definition) (name : String) (t : Ty) : Prop where
  found : ∃ i, d.Names i name ∧ d.inferred.graph.ty? i = some t
  unique : ∀ i u, d.Names i name → d.inferred.graph.ty? i = some u → u = t

/-- The node is part of the first argument of a call of a known function that would assign its
result there, and the argument cannot be assigned. -/
def Dropped (d : Definition) (i : Id) : Prop :=
  ∃ c e callee out rest, d.calls.target? c = some (.known e) ∧
    d.desugared.kind c = .call callee (out :: rest) ∧ e.form.isOut = true ∧
    d.desugared.isAssignable out = false ∧ i ∈ d.desugared.descendants out

variable (hd : ofGraph g = .ok d) (h : g.IsTree) (hok : d.inferred.failure = none)

include hd h hok

omit hd h in
theorem not_below_callee {c q : Id} {n : Nat}
    (hname : d.desugared.identName? i = some (b.flatName f))
    (hdrops : DropsCallee d.inferred.graph d.calls.targets c q) :
    ¬ d.inferred.graph.Below q n i := by
  have hs := (changed_inferred hok).sameShape
  obtain ⟨e, he, hpath⟩ := dottedPath?_of_dropsCallee hs hdrops
  intro hbelow
  rw [identName?_eq_some] at hname
  rcases kind_of_below_path hpath (hs.below hbelow) with ⟨name, hk, hsub⟩ | ⟨o, p, hk⟩
  · rw [hname] at hk
    cases hk
    exact Known.underscore_notMem_name he (hsub _ (b.underscore_mem_flatName f))
  · rw [hname] at hk
    cases hk

/-- What loses its place is in a first argument that cannot be assigned. -/
theorem dropped_iff : d.Dropped i ↔ ∃ c ∈ d.inferred.graph.live, ∃ q n,
    DropsOut d.inferred.graph d.calls.targets c q ∧ d.inferred.graph.Below q n i := by
  obtain ⟨hchanged, harity⟩ := infer_attached hok
  exact (below_dropsOut_iff (isTree_desugared hd h) hchanged.sameShape harity).symm

/-- **The identifiers with a flat name that are left** when calls have been written in their
forms. -/
theorem names_lowered_iff :
    i ∈ d.lowered.live ∧ d.lowered.identName? i = some (b.flatName f) ↔
      d.Names i (b.flatName f) ∧ ¬ d.Dropped i := by
  have hs := (changed_inferred hok).sameShape
  have hlow := (callsLowered_lowered hd h hok).lowered
  have ht := isTree_inferred hd h hok
  have reached : d.Names i (b.flatName f) → (i ∈ d.lowered.live ↔ ¬ d.Dropped i) := by
    rintro ⟨hi, hname⟩
    have hil : i ∈ d.inferred.graph.live := by
      rw [hs.live]
      exact hi
    rw [(isTree_lowered hd h hok).mem_live_iff, (routed_lowered hd h hok).reached_iff hlow ht
      hil fun c q n hdrops => not_below_callee hok hname hdrops, dropped_iff hd h hok]
    constructor
    · rintro hnone ⟨c, hc, q, n, hdrops, hn⟩
      exact hnone c hc q n hdrops hn
    · exact fun hnone c hc q n hdrops hn => hnone ⟨c, hc, q, n, hdrops, hn⟩
  constructor
  · rintro ⟨hi, hname⟩
    rw [identName?_eq_some] at hname
    have hlt : i < d.inferred.graph.size := by
      by_contra hge
      have hreserved := hlow.reserved i (not_lt.mp hge) _ hname
      rw [b.isReserved_flatName] at hreserved
      cases hreserved
    obtain ⟨owner, hg⟩ := hlow.grown
    have hlive := hg.owner_live ht hi
    rw [hg.old i hlt, hs.live] at hlive
    have hnames : d.Names i (b.flatName f) := by
      refine ⟨hlive, identName?_eq_some.mpr ?_⟩
      rw [← hs.kind]
      exact hlow.ident hlt hname
    exact ⟨hnames, (reached hnames).mp hi⟩
  · rintro ⟨hnames, hkept⟩
    exact ⟨(reached hnames).mpr hkept, identName?_lowered hd h hok hnames.2⟩

omit hd h hok in
theorem ty?_lowered (hi : i < d.inferred.graph.size) :
    d.lowered.ty? i = d.inferred.graph.ty? i :=
  ((extends_lowerDiscards _ _).trans (extends_lowerCalls _ _)).ty? hi

omit h hok in
theorem untyped_desugared (hg : g.Untyped) : d.desugared.Untyped := by
  have hsame : SameTypes g d.desugared := by
    unfold desugared flattened
    rw [(ofGraph_eq_ok hd).1]
    exact (sameTypes_flatten g d.entries).trans (d.entries.sameTypes_attachHints _)
  exact fun i => (hsame i).trans (hg i)

omit h hok in
/-- In a program without types, identifiers of a name that nothing declares get one type. -/
theorem ty?_inferred_congr (hg : g.Untyped) {name : String} {j : Id}
    (hfree : ∀ i, d.Names i name → d.desugared.key? i = some (d.desugared.root, name))
    (hi : d.Names i name) (hj : d.Names j name) :
    d.inferred.graph.ty? i = d.inferred.graph.ty? j := by
  have huniform : Infer.Uniform (.of d.desugared d.calls) d.desugared := by
    intro k l _
    have hsame : (d.desugared.node l).typing = (d.desugared.node k).typing :=
      (untyped_desugared hd hg l).trans (untyped_desugared hd hg k).symm
    exact Prod.mk.inj hsame
  exact (uniform_infer huniform j i
    (Scopes.mem_occurrences_iff.mpr (.inr ⟨hj.1, hi.1, _, hfree j hj, hfree i hi⟩))).1

/-- **The type that an input is declared with** is that of an identifier that is left, if any has
one. -/
theorem declared_type_cases {δ : FieldDecl}
    (hδ : δ ∈ d.flattened.fields.declarations d.lowered) :
    (∃ i, d.Names i δ.name ∧ ¬ d.Dropped i ∧ d.inferred.graph.ty? i = some δ.ty) ∨
    (∀ i, d.Names i δ.name → ¬ d.Dropped i → d.inferred.graph.ty? i = none) ∧ δ.ty = .float := by
  have hty : ∀ {i}, d.Names i δ.name → d.lowered.ty? i = d.inferred.graph.ty? i := fun hi => by
    refine ty?_lowered ?_
    rw [(changed_inferred hok).size]
    exact (isTree_desugared hd h).lt_size hi.1
  have hleft : ∀ {i}, i ∈ d.lowered.live ∧ d.lowered.identName? i = some δ.name ↔
      d.Names i δ.name ∧ ¬ d.Dropped i := by
    rw [BucketFields.declarations_name _ _ δ hδ]
    exact names_lowered_iff hd h hok
  rw [BucketFields.declarations_ty _ _ δ hδ]
  rcases BucketFields.typeOfName_cases d.lowered δ.name with ⟨i, hi, hname, ht⟩ | ⟨hnone, ht⟩
  · obtain ⟨hnames, hkept⟩ := hleft.mp ⟨hi, hname⟩
    exact .inl ⟨i, hnames, hkept, hty hnames ▸ ht⟩
  · refine .inr ⟨fun i hnames hkept => ?_, ht⟩
    obtain ⟨hi, hname⟩ := hleft.mpr ⟨hnames, hkept⟩
    rw [← hty hnames]
    exact hnone i hi hname

end Definition

open Definition

variable {g : Graph} {d : Definition}

/-- **An input is declared with the type that inference gives to its identifiers exactly if that is
a number or an identifier of that type keeps its place**, and as a number otherwise. In a program
without types, identifiers that belong to the program all get the same type or none. -/
theorem declared_type_iff_kept (h : g.IsTree) (hd : ofGraph g = .ok d) {o : Options} {s : Shader}
    (hs : (d.compile o).1 = .ok s) {δ : FieldDecl}
    (hδ : δ ∈ d.flattened.fields.declarations d.lowered) :
    ((∀ i, d.Names i δ.name → d.inferred.graph.ty? i = none) → δ.ty = .float) ∧
    (∀ t, d.InferredAs δ.name t → (δ.ty = t ∨ δ.ty = .float) ∧
      (δ.ty = t ↔ t = .float ∨
        ∃ i, d.Names i δ.name ∧ d.inferred.graph.ty? i = some t ∧ ¬ d.Dropped i)) ∧
    (g.Untyped → (∀ i, d.Names i δ.name →
        d.desugared.key? i = some (d.desugared.root, δ.name)) →
      (∀ i, d.Names i δ.name → d.inferred.graph.ty? i = none) ∨ ∃ t, d.InferredAs δ.name t) := by
  have hok := (d.failure?_of_compile hs).2
  refine ⟨fun hnone => ?_, fun t hinf => ?_, fun hg hfree => ?_⟩
  · rcases declared_type_cases hd h hok hδ with ⟨i, hi, -, ht⟩ | ⟨-, hfloat⟩
    · rw [hnone i hi] at ht
      cases ht
    · exact hfloat
  · rcases declared_type_cases hd h hok hδ with ⟨i, hi, hkept, ht⟩ | ⟨hnone, hfloat⟩
    · have he := hinf.unique i _ hi ht
      exact ⟨.inl he, fun _ => .inr ⟨i, hi, he ▸ ht, hkept⟩, fun _ => he⟩
    · refine ⟨.inr hfloat, fun he => .inl (he.symm.trans hfloat), ?_⟩
      rintro (rfl | ⟨i, hi, ht, hkept⟩)
      · exact hfloat
      · rw [hnone i hi hkept] at ht
        cases ht
  · by_cases hnone : ∀ i, d.Names i δ.name → d.inferred.graph.ty? i = none
    · exact .inl hnone
    · push Not at hnone
      obtain ⟨i, hi, ht⟩ := hnone
      obtain ⟨t, ht⟩ := Option.ne_none_iff_exists'.mp ht
      refine .inr ⟨t, ⟨i, hi, ht⟩, fun j u hj hu => ?_⟩
      rw [ty?_inferred_congr hd hg hfree hj hi, ht] at hu
      exact (Option.some.inj hu).symm

/-- The program
`function VertexPosition() {
  return vec3.add(vec3.clone(uniforms.u), attributes.p, attributes.p);
}
function FragmentColor() { return [1, 1, 1, 1]; }`. -/
def droppedUniform : Definition where
  graph := Build.finish do
    let input (bucket name : String) : Build Id := do Build.field (← Build.ident bucket) name
    let u ← input "uniforms" "u"
    let copy ← Build.call (← Build.field (← Build.ident "vec3") "clone") [u]
    let left ← input "attributes" "p"
    let right ← input "attributes" "p"
    let sum ← Build.call (← Build.field (← Build.ident "vec3") "add") [copy, left, right]
    let _ ← Build.function "VertexPosition" [] [← Build.ret (some sum)]
    let ones ← (List.replicate 4 "1").mapM Build.num
    let _ ← Build.function "FragmentColor" [] [← Build.ret (some (← Build.array ones))]
  entries := { vertexPosition := 20, fragmentColor := 29, pointSize := none }

-- one evaluation of the passes for all that is said about the program below
theorem passes_droppedUniform : droppedUniform.graph.IsTree ∧
    EntryPoints.locate droppedUniform.graph = .ok droppedUniform.entries ∧
    droppedUniform.failure? = none ∧
    (∀ i ∈ droppedUniform.graph.live, ∀ name ∈ droppedUniform.graph.identName? i,
      ∀ b ∈ Bucket.all, after? b.stem name = none) ∧
    droppedUniform.flattened.fields.declarations droppedUniform.lowered =
      [⟨.attributes, "p", "attributes_p", .vec3⟩, ⟨.uniforms, "u", "uniforms_u", .float⟩] ∧
    (∀ i ∈ droppedUniform.desugared.live,
      droppedUniform.desugared.identName? i = some "attributes_p" ∨
        droppedUniform.desugared.identName? i = some "uniforms_u" →
      droppedUniform.inferred.graph.ty? i = some .vec3) ∧
    (2 ∈ droppedUniform.desugared.live ∧
      droppedUniform.desugared.identName? 2 = some "uniforms_u") ∧
    9 ∈ droppedUniform.desugared.live ∧
      droppedUniform.desugared.identName? 9 = some "attributes_p" := by
  decide +kernel

theorem inferredAs_droppedUniform {i : Id} {name : String}
    (hname : name = "attributes_p" ∨ name = "uniforms_u") (hi : droppedUniform.Names i name) :
    droppedUniform.InferredAs name .vec3 := by
  obtain ⟨-, -, -, -, -, hty, -, -⟩ := passes_droppedUniform
  have vec3 : ∀ j, droppedUniform.Names j name →
      droppedUniform.inferred.graph.ty? j = some .vec3 := by
    rintro j ⟨hj, hnj⟩
    refine hty j hj ?_
    rwa [hnj, Option.some.injEq, Option.some.injEq]
  refine ⟨⟨i, hi, vec3 i hi⟩, fun j t hj ht => ?_⟩
  rw [vec3 j hj] at ht
  exact (Option.some.inj ht).symm

/-- An attribute is declared with its type, since an identifier of it keeps its place. None of the
uniform does. -/
theorem declared_type_iff_kept_droppedUniform :
    droppedUniform.graph.IsTree ∧ ofGraph droppedUniform.graph = .ok droppedUniform ∧
    (∃ s, (droppedUniform.compile {}).1 = .ok s) ∧
    (∃ i, droppedUniform.Names i "attributes_p" ∧
      droppedUniform.inferred.graph.ty? i = some .vec3 ∧ ¬ droppedUniform.Dropped i) ∧
    droppedUniform.Names 2 "uniforms_u" ∧ droppedUniform.Dropped 2 := by
  obtain ⟨h, he, hf, -, hdecls, hty, hu, hp⟩ := passes_droppedUniform
  have hd := ofGraph_of_locate he
  have hs := droppedUniform.compile_of_failure? (o := {}) hf
  have typed := (declared_type_iff_kept h hd hs
    (δ := ⟨.attributes, "p", "attributes_p", .vec3⟩) (by simp [hdecls])).2.1 .vec3
      (inferredAs_droppedUniform (.inl rfl) hp)
  have number := (declared_type_iff_kept h hd hs
    (δ := ⟨.uniforms, "u", "uniforms_u", .float⟩) (by simp [hdecls])).2.1 .vec3
      (inferredAs_droppedUniform (.inr rfl) hu)
  refine ⟨h, hd, ⟨_, hs⟩, (typed.2.mp rfl).resolve_left nofun, hu, ?_⟩
  by_contra hkept
  cases number.2.mpr (.inr ⟨2, hu, hty 2 hu.1 (.inr hu.2), hkept⟩)

/-- **An input whose identifiers all lose their place is declared as a number**, though inference
gives them another type. -/
theorem declared_type_droppedUniform :
    droppedUniform.graph.IsTree ∧ ofGraph droppedUniform.graph = .ok droppedUniform ∧
    (∃ s, (droppedUniform.compile {}).1 = .ok s) ∧
    (∀ i ∈ droppedUniform.graph.live, ∀ name ∈ droppedUniform.graph.identName? i,
      ∀ b ∈ Bucket.all, after? b.stem name = none) ∧
    droppedUniform.InferredAs (Bucket.uniforms.flatName "u") .vec3 ∧
    ∃ δ ∈ droppedUniform.flattened.fields.declarations droppedUniform.lowered,
      δ.bucket = .uniforms ∧ δ.field = "u" ∧ δ.ty = .float := by
  obtain ⟨h, he, hf, hplain, hdecls, -, hu, -⟩ := passes_droppedUniform
  refine ⟨h, ofGraph_of_locate he, ⟨_, droppedUniform.compile_of_failure? (o := {}) hf⟩, hplain,
    inferredAs_droppedUniform (.inr (by decide)) hu, ?_⟩
  exact ⟨⟨.uniforms, "u", "uniforms_u", .float⟩, by simp [hdecls], rfl, rfl, rfl⟩

end ShaderScript
