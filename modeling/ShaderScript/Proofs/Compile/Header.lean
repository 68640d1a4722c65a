import ShaderScript.Builder
import ShaderScript.Proofs.Compile.Builtins
import ShaderScript.Proofs.Names.Inputs

/-!
# The inputs that a program declares

Both stages share the declarations, and a stage leaves out those of the buckets that it does not
have: fragments have no attributes. Everything else that is read is declared, under the name that
it is printed with.

* `Definition.header`: the declarations of a stage.
* `Definition.Reads`: an access of the source is part of an item of a stage.
* `Definition.Declared`: the stage declares its input under its name.
* `Definition.Clear`: nothing else takes the bare name of an input.
* `Definition.isPropertyName_of_printed`, `Definition.identName?_desugared_access`: an access before
  and after calls are written in their forms.
* `Definition.exists_declared_access`: its input is declared under its name.
* **`declared_iff_declares`**: the input is declared exactly if the stage has the bucket.
* `undeclared_strayInputs`: accesses whose inputs are not declared.
-/

namespace ShaderScript

open Graph

/-- The program of a stage. -/
def Shader.text (s : Shader) : Stage → String
  | .vertex => s.vertex
  | .fragment => s.fragment

theorem Glsl.exists_join_eq {α : Type} (text : α → String) {xs : List α} {a : α} (ha : a ∈ xs) :
    ∃ head tail, String.join (xs.map text) = head ++ text a ++ tail := by
  obtain ⟨before, after, rfl⟩ := List.append_of_mem ha
  refine ⟨String.join (before.map text), String.join (after.map text), ?_⟩
  rw [List.map_append, List.map_cons, String.join_append, String.join_cons, String.append_assoc]

/-- The identifier stands for a variable, and no `var` of the program declares it. -/
def Graph.Unclaimed (x : Graph) (i : Id) : Prop :=
  ∃ k, x.key? i = some k ∧ ∀ v, x.IsVariable v → x.key? v ≠ some k

/-! ## Headers -/

namespace Definition

variable {g : Graph} {d : Definition} {stage : Stage} {i : Id} {b : Bucket} {f : String}

/-- The declarations of a stage. -/
def header (d : Definition) (stage : Stage) : List FieldDecl :=
  d.named.2.filter fun δ => stage.declares δ.bucket

/-- The stage declares the input under the name that the identifier is printed with. -/
def Declared (d : Definition) (stage : Stage) (i : Id) (b : Bucket) (f : String) : Prop :=
  ∃ δ ∈ d.header stage, δ.bucket = b ∧ δ.field = f ∧ d.printed.identName? i = some δ.name

instance (d : Definition) (stage : Stage) (i : Id) (b : Bucket) (f : String) :
    Decidable (d.Declared stage i b f) :=
  inferInstanceAs (Decidable (∃ δ ∈ _, _))

/-- The node is an access of the source to an input, and still part of an item of the stage. -/
structure Reads (d : Definition) (stage : Stage) (i : Id) (b : Bucket) (f : String) : Prop where
  access : d.graph.Access i b f
  part : ∃ item ∈ d.itemsOf stage, ∃ r, item.node? = some r ∧ i ∈ d.printed.descendants r

/-- Where the stem of the input comes off, nothing else takes its bare name. -/
def Clear (d : Definition) (b : Bucket) (f : String) : Prop :=
  ∀ δ ∈ d.named.2, δ.bucket = b → δ.field = f → δ.name = f →
    Naming.Clear d.lowered (d.flattened.fields.declarations d.lowered) f

theorem text_of_compile {o : Options} {s : Shader} (hs : (d.compile o).1 = .ok s) (stage : Stage) :
    s.text stage =
      Glsl.programText d.printed d.entries o stage d.named.2 (d.itemsOf stage) := by
  rw [compile_fst] at hs
  cases hf : d.failure? with
  | some e => rw [hf] at hs; cases hs
  | none =>
    rw [hf] at hs
    cases hs
    cases stage <;> rfl

theorem declarationText_of_mem_header {o : Options} {s : Shader} (hs : (d.compile o).1 = .ok s)
    {δ : FieldDecl} (hδ : δ ∈ d.header stage) :
    ∃ head tail, s.text stage = head ++ Glsl.declarationText δ ++ tail := by
  have hdecls : Glsl.declarationsText stage d.named.2 =
      String.join ((d.header stage).map Glsl.declarationText) ++ "\n" := by
    unfold Glsl.declarationsText
    split
    case h_1 hnil => rw [header, hnil] at hδ; cases hδ
    case h_2 => rfl
  obtain ⟨head, tail, hjoin⟩ := Glsl.exists_join_eq Glsl.declarationText hδ
  rw [text_of_compile hs, Glsl.programText, hdecls, hjoin]
  generalize "precision " ++ o.precision.name ++ " float;\n\n" = lead,
    String.join ((d.itemsOf stage).map (Glsl.itemText d.printed d.entries o)) = items,
    Glsl.mainText d.printed d.entries o stage = main
  exact ⟨lead ++ head, tail ++ "\n" ++ items ++ main, by simp only [String.append_assoc]⟩

/-! ## Accesses on their way to the text -/

variable (hd : ofGraph g = .ok d) (h : g.IsTree) (hok : d.inferred.failure = none)

include hd h hok

theorem isPropertyName_of_printed (hi : i ∈ d.printed.live)
    (hp : d.printed.isPropertyName i = true) : d.desugared.isPropertyName i = true := by
  have ht : d.printed.IsTree :=
    renames_printed.changed.isTree_of_renamed (isTree_lowered hd h hok)
  obtain ⟨p, o, hparent, hk⟩ := isPropertyName_iff.mp hp
  rw [kind_printed_iff hd h hok rfl] at hk
  have hpl := live_of_printed hd h hok (ht.parent_live hi hparent).1 (lt_size_of_kind (hk ▸ nofun))
  refine isPropertyName_iff.mpr ⟨p, o, (isTree_desugared hd h).parent_child p hpl i ?_, hk⟩
  rw [children, hk]
  exact List.mem_cons_of_mem _ List.mem_cons_self

omit hok in
theorem identName?_desugared_access (ha : g.Access i b f) (hi : i ∈ d.desugared.live)
    (hfree : (g.flat d.entries).Unclaimed i) :
    d.desugared.identName? i = some (b.flatName f) ∧ d.desugared.isPropertyName i = false := by
  have hc := changed_desugared hd
  rw [hc.live_eq] at hi
  obtain ⟨⟨scope, name⟩, hk, hno⟩ := hfree
  have hflat := identName?_eq_some.mpr (kind_flat_access h d.entries hi ha)
  have hhints := (EntryPoints.changed_attachHints d.entries d.flattened.graph).sameShape
  constructor
  · rw [desugared, hhints.identName?, flattened, (ofGraph_eq_ok hd).1, flatten_graph]
    refine identName?_of_no_variable hflat (b.flatName_unmarked f).1 fun v k hv hkv hki => ?_
    rw [hk] at hki
    exact hno v hv (hkv.trans hki.symm)
  · rw [hc.isPropertyName_eq]
    exact (key?_eq_some.mp hk).1

/-- An access that no variable takes is declared, if its bare name is nothing else. -/
theorem exists_declared_access (ha : g.Access i b f) (hi : i ∈ d.printed.live)
    (hfree : (g.flat d.entries).Unclaimed i) (hclear : d.Clear b f) :
    ∃ δ ∈ d.named.2, δ.bucket = b ∧ δ.field = f ∧ d.printed.identName? i = some δ.name := by
  have hlt : i < d.desugared.size := by
    rw [(changed_desugared hd).size, (changed_flat h d.entries).size]
    obtain ⟨o, p, hat⟩ := ha
    exact lt_size_of_kind (hat.node ▸ nofun)
  have hlive := live_of_printed hd h hok hi hlt
  obtain ⟨hname, hprop⟩ := identName?_desugared_access hd h ha hlive hfree
  have hδ : ⟨b, f, b.flatName f, BucketFields.typeOfName d.lowered (b.flatName f)⟩ ∈
      d.flattened.fields.declarations d.lowered := by
    refine List.mem_map.mpr ⟨(b, f), BucketFields.mem_toList.mpr ?_, rfl⟩
    rw [flattened, (ofGraph_eq_ok hd).1]
    exact mem_fields_flatten h d.entries ((changed_desugared hd).live_eq ▸ hlive) ha
  have hprop' : d.lowered.isPropertyName i = false := by
    rw [Bool.eq_false_iff]
    intro hp
    rw [← renames_printed.changed.isPropertyName_eq] at hp
    rw [isPropertyName_of_printed hd h hok hi hp] at hprop
    cases hprop
  exact exists_declared_bareNames (renames_printed.changed.live_eq ▸ hi) hprop'
    (BucketFields.declarations_name _ _) hδ (identName?_lowered hd h hok hname) hclear

end Definition

open Definition

/-- **A stage declares the input of an access exactly if it has the bucket.** In a program that
compiles, take an access that is part of an item of a stage and that no variable takes for its own,
to an input whose bare name nothing else takes. The stage declares the input, under the name that
the access is printed with, exactly if it declares the inputs of the bucket; and its text has all of
its declarations. -/
theorem declared_iff_declares {g : Graph} (h : g.IsTree) {d : Definition} (hd : ofGraph g = .ok d)
    {o : Options} {s : Shader} (hs : (d.compile o).1 = .ok s) {stage : Stage} {i : Id} {b : Bucket}
    {f : String} (hr : d.Reads stage i b f) (hfree : (g.flat d.entries).Unclaimed i)
    (hclear : d.Clear b f) :
    (d.Declared stage i b f ↔ stage.declares b = true) ∧
    ∀ δ ∈ d.header stage, ∃ head tail,
      s.text stage = head ++ Glsl.declarationText δ ++ tail := by
  obtain ⟨-, hok⟩ := d.failure?_of_compile hs
  refine ⟨⟨?_, fun hb => ?_⟩, fun δ hδ => declarationText_of_mem_header hs hδ⟩
  · rintro ⟨δ, hδ, rfl, -⟩
    exact (List.mem_filter.mp hδ).2
  · obtain ⟨ha, item, hitem, r, hnode, hi⟩ := hr
    rw [(ofGraph_eq_ok hd).1] at ha
    obtain ⟨δ, hδ, rfl, rfl, hname⟩ := exists_declared_access hd h hok ha
      (live_of_item hd h hok hitem hnode hi) hfree hclear
    exact ⟨δ, List.mem_filter.mpr ⟨hδ, hb⟩, rfl, rfl, hname⟩

/-- The program
`function VertexPosition() {
  var attributes_x = 1;
  var q = vec3.add(vec3.clone(uniforms.u), attributes.uniforms_u, attributes.uniforms_u);
  return [attributes.x, attributes._local_p, varyings.v.(attributes.y), uniforms.t];
}
function FragmentColor() { return attributes.c; }`, with an access in the place of a property. -/
def strayInputs : Definition where
  graph := Build.finish do
    let input (bucket name : String) : Build Id := do Build.field (← Build.ident bucket) name
    let vec3 (name : String) : Build Id := do Build.field (← Build.ident "vec3") name
    let x ← Build.var "attributes_x" (some (← Build.num "1"))
    let out ← Build.call (← vec3 "clone") [← input "uniforms" "u"]
    let left ← input "attributes" "uniforms_u"
    let right ← input "attributes" "uniforms_u"
    let q ← Build.var "q" (some (← Build.call (← vec3 "add") [out, left, right]))
    let taken ← input "attributes" "x"
    let marked ← input "attributes" "_local_p"
    let property ← Build.node (.field (← input "varyings" "v") (← input "attributes" "y"))
    let plain ← input "uniforms" "t"
    let position ← Build.ret (some (← Build.array [taken, marked, property, plain]))
    let _ ← Build.function "VertexPosition" [] [x, q, position]
    let _ ← Build.function "FragmentColor" [] [← Build.ret (some (← input "attributes" "c"))]
  entries := { vertexPosition := 44, fragmentColor := 51, pointSize := none }

/-- Accesses of the program to inputs that are not declared: an attribute of a fragment, an access
that a variable takes, a bare name with a mark, an access in the place of a property, and a bare name
that is the flat name of an input without identifiers. -/
def strayAccesses : List (Stage × Id × Bucket × String) :=
  [(.fragment, 47, .attributes, "c"), (.vertex, 26, .attributes, "x"),
    (.vertex, 29, .attributes, "_local_p"), (.vertex, 35, .attributes, "y"),
    (.vertex, 13, .attributes, "uniforms_u")]

-- one evaluation of the passes for all that is said about the program below
theorem passes_strayInputs : strayInputs.graph.IsTree ∧
    EntryPoints.locate strayInputs.graph = .ok strayInputs.entries ∧
    strayInputs.failure? = none ∧
    (∀ q ∈ (.vertex, 39, .uniforms, "t") :: strayAccesses,
      strayInputs.graph.bucketAccess? q.2.1 = some q.2.2 ∧
      ∃ r ∈ strayInputs.roots q.1, .function r ∈ strayInputs.itemsOf q.1 ∧
        q.2.1 ∈ strayInputs.printed.descendants r) ∧
    (∀ q ∈ strayAccesses, ¬ strayInputs.Declared q.1 q.2.1 q.2.2.1 q.2.2.2) ∧
    (∀ δ ∈ strayInputs.flattened.fields.declarations strayInputs.lowered, δ.name ≠ "t") ∧
    (strayInputs.graph.flat strayInputs.entries).key? 39 = some (52, "uniforms_t") ∧
    ∀ v ∈ (strayInputs.graph.flat strayInputs.entries).live,
      (strayInputs.graph.flat strayInputs.entries).IsVariable v →
        (strayInputs.graph.flat strayInputs.entries).key? v ≠ some (52, "uniforms_t") := by
  decide +kernel

theorem reads_strayInputs :
    ∀ q ∈ (.vertex, 39, .uniforms, "t") :: strayAccesses,
      strayInputs.Reads q.1 q.2.1 q.2.2.1 q.2.2.2 := by
  intro q hq
  obtain ⟨-, -, -, hparts, -⟩ := passes_strayInputs
  obtain ⟨haccess, r, -, hitem, hi⟩ := hparts q hq
  obtain ⟨o, p, hk, ho, hp⟩ := bucketAccess?_eq_some.mp haccess
  exact ⟨⟨o, p, hk, hp, .inl ho⟩, _, hitem, r, rfl, hi⟩

/-- An input that loses its stem is declared under the name that is left. -/
theorem declared_iff_declares_strayInputs :
    strayInputs.graph.IsTree ∧ ofGraph strayInputs.graph = .ok strayInputs ∧
    (∃ s, (strayInputs.compile {}).1 = .ok s) ∧
    strayInputs.Reads .vertex 39 .uniforms "t" ∧
    strayInputs.Declared .vertex 39 .uniforms "t" := by
  obtain ⟨h, he, hf, -, -, hbare, hk, hvar⟩ := passes_strayInputs
  have hd := ofGraph_of_locate he
  have hs := strayInputs.compile_of_failure? (o := {}) hf
  have hr := reads_strayInputs _ List.mem_cons_self
  have hclear : strayInputs.Clear .uniforms "t" := fun _ _ _ _ _ =>
    ⟨by decide, fun δ hδ hname => absurd hname (hbare δ hδ)⟩
  refine ⟨h, hd, ⟨_, hs⟩, hr,
    (declared_iff_declares h hd hs hr ⟨_, hk, fun v hv => ?_⟩ hclear).1.mpr rfl⟩
  exact hvar v (hv.live (isTree_flat h strayInputs.entries)) hv

/-- **A fragment does not declare the attributes that it reads**, and there are accesses that a
vertex does not declare. -/
theorem undeclared_strayInputs :
    strayInputs.graph.IsTree ∧ ofGraph strayInputs.graph = .ok strayInputs ∧
    (∃ s, (strayInputs.compile {}).1 = .ok s) ∧
    ∀ q ∈ strayAccesses, strayInputs.Reads q.1 q.2.1 q.2.2.1 q.2.2.2 ∧
      ¬ strayInputs.Declared q.1 q.2.1 q.2.2.1 q.2.2.2 := by
  obtain ⟨h, he, hf, -, hundeclared, -⟩ := passes_strayInputs
  exact ⟨h, ofGraph_of_locate he, ⟨_, strayInputs.compile_of_failure? (o := {}) hf⟩, fun q hq =>
    ⟨reads_strayInputs q (List.mem_cons_of_mem _ hq), hundeclared q hq⟩⟩

end ShaderScript
