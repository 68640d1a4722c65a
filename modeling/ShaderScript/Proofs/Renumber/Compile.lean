import ShaderScript.Proofs.Estree.Unshared
import ShaderScript.Proofs.Renumber.Lower
import ShaderScript.Proofs.Renumber.Tree

/-!
# Compiling depends on the tree alone

Two programs with the same tree are copies of one program with nothing beside it. All passes treat
copies alike, and so the two give the same shader or the same error.

* `Graph.Copy.programText`: the text of a stage.
* `shaderOf`: the shader of a flat program, or why there is none.
* **`shaderOf_copy`**: a flat program and its copy give one shader or one error.
* `compile_copy`: so do a program and its copy, whose flat forms are numbered anew.
* **`compile_eq_of_tree_eq`**: so do any two programs with the same tree.
-/

namespace ShaderScript

theorem EntryPoints.contains_map {f : Id → Id} (hf : Function.Injective f) (e : EntryPoints)
    (i : Id) : (e.map f).contains (f i) = e.contains i := by
  unfold contains
  rw [toList_map, List.any_map]
  refine congrArg (List.any e.toList) (funext fun p => ?_)
  rw [Function.comp_apply, Bool.eq_iff_iff, beq_iff_eq, beq_iff_eq]
  exact hf.eq_iff

namespace Graph.Copy

variable {linked : Prop} {f : Id → Id} {k g : Graph}

/-! ## Texts -/

open Glsl

theorem entryCall (r : Copy linked f k g) (i : Id) :
    Glsl.entryCall g (f i) = Glsl.entryCall k i := by
  unfold Glsl.entryCall
  rw [r.functionName?]

theorem outputText (r : Copy linked f k g) (i : Id) :
    Glsl.outputText g (f i) = Glsl.outputText k i := by
  have htype : entryType? g (f i) = entryType? k i := by
    unfold entryType?
    rw [r.kind]
    cases k.kind i <;> first | rfl | exact r.ty? _
  unfold Glsl.outputText
  rw [htype, r.entryCall]

theorem mainText (r : Copy linked f k g) (e : EntryPoints) (o : Options) (stage : Stage) :
    Glsl.mainText g (e.map f) o stage = Glsl.mainText k e o stage := by
  have hlines : mainLines g (e.map f) stage = mainLines k e stage := by
    cases stage with
    | fragment => exact congrArg (fun s => ["gl_FragColor = " ++ s ++ ";"]) (r.outputText _)
    | vertex =>
      unfold mainLines EntryPoints.map
      simp only [r.outputText]
      cases e.pointSize with
      | none => rfl
      | some i =>
        simp only [Option.map_some, Option.toList_some, List.map_cons, List.map_nil, r.entryCall]
  unfold Glsl.mainText
  rw [hlines]

/-- **The text of a stage.** -/
theorem programText (r : Copy True f k g) (e : EntryPoints) (o : Options) (stage : Stage)
    (decls : List FieldDecl) {items : List Item}
    (hitems : ∀ item ∈ items, ∀ i, item.node? = some i → k.Bounded i) :
    Glsl.programText g (e.map f) o stage decls (items.map (Item.map f)) =
      Glsl.programText k e o stage decls items := by
  have hitem : ∀ item ∈ items,
      (itemText g (e.map f) o ∘ Item.map f) item = itemText k e o item := by
    intro item hmem
    rw [Function.comp_apply]
    unfold itemText
    refine congrArg ("\n".intercalate · ++ "\n\n") ?_
    cases item with
    | library => rfl
    | global i => exact r.lines o.indent (hitems _ hmem i rfl)
    | function i =>
      unfold itemLines
      dsimp only [Item.map]
      rw [EntryPoints.contains_map r.inj]
      exact r.functionLines o.indent _ (hitems _ hmem i rfl)
  unfold Glsl.programText
  rw [r.mainText, List.map_map, List.map_congr_left hitem]

theorem entryError? (r : Copy linked f k g) (p : EntryPoint × Id) :
    ShaderScript.entryError? g (Prod.map id f p) = ShaderScript.entryError? k p := by
  unfold ShaderScript.entryError?
  simp only [Prod.map_snd, Prod.map_fst, r.kind]
  cases k.kind p.2 with
  | function name params body => simp only [Kind.map, r.ty?, id_eq]
  | _ => rfl

end Graph.Copy

/-! ## Shaders -/

/-- The shader of a flat program, or why there is none. -/
def shaderOf (g : Graph) (e : EntryPoints) (fields : BucketFields) (o : Options) :
    Except Error Shader :=
  let calls := CallTable.resolve g
  let stages := Stages.extract g e calls
  let failure := ((stages.firstError? g calls).map Prod.snd).or
    ((infer g calls).failure.or (e.toList.findSome? (entryError? (infer g calls).graph)))
  match failure with
  | some error => .error error
  | none =>
    let lowered := g.lowered e.fragmentColor
    let named := bareNames lowered (fields.declarations lowered)
    .ok (emit named.1 e o named.2 stages)

theorem Definition.compile_eq_shaderOf (d : Definition) (o : Options) :
    (d.compile o).1 = shaderOf d.desugared d.entries d.flattened.fields o := d.compile_fst o

variable {f : Id → Id} {k g : Graph} {e : EntryPoints}

theorem emit_copy (r : Graph.Copy True f k g) (hk : k.IsTree) (fields : BucketFields) (o : Options)
    {s : Stages} (hs : ∀ item ∈ s.items, ∀ i, item.node? = some i → i ∈ k.live) :
    emit (bareNames g (fields.declarations g)).1 (e.map f) o
        (bareNames g (fields.declarations g)).2 (s.map f) =
      emit (bareNames k (fields.declarations k)).1 e o
        (bareNames k (fields.declarations k)).2 s := by
  have hrenames := renames_bareNames k (fields.declarations_name k)
  have htree : (bareNames k (fields.declarations k)).1.IsTree :=
    hrenames.changed.isTree_of_renamed hk
  have hitems : ∀ item ∈ s.items, ∀ i, item.node? = some i →
      (bareNames k (fields.declarations k)).1.Bounded i := fun item hitem i hi =>
    htree.bounded (hrenames.changed.live_eq ▸ hs item hitem i hi)
  rw [r.declarations (hk.bounded hk.root_live)]
  obtain ⟨rnames, hdecls⟩ := r.bareNames hk (fields.declarations k)
  unfold emit Stages.map
  rw [hdecls]
  refine congrArg₂ Shader.mk ?_ ?_
  · exact rnames.programText e o .vertex _ fun item hi => hitems item (List.mem_append_left _ hi)
  · exact rnames.programText e o .fragment _ fun item hi => hitems item (List.mem_append_right _ hi)

/-- **A flat program and its copy give one shader or one error.** -/
theorem shaderOf_copy (r : Graph.Copy True f k g) (hk : k.Whole)
    (he : ∀ i ∈ e.vertexStage ++ e.fragmentStage, i ∈ k.functions) (fields : BucketFields)
    (o : Options) :
    shaderOf g (e.map f) fields o = shaderOf k e fields o := by
  have hstages := r.stages hk e
  obtain ⟨hfailure, rinfer⟩ := r.infer hk (.resolve k)
  have hfirst := r.firstError? hk.bounded (.resolve k) (.extract k e (.resolve k))
  rw [← hstages, ← r.calls hk] at hfirst
  rw [← r.calls hk] at hfailure rinfer
  unfold shaderOf
  dsimp only
  rw [hfirst, Option.map_map, hfailure, EntryPoints.toList_map, List.findSome?_map]
  cases (Stages.extract k e (.resolve k)).firstError? k (.resolve k) with
  | some p => rfl
  | none =>
    cases hok : (infer k (.resolve k)).failure with
    | some error => rfl
    | none =>
      have hcolor : e.fragmentColor ∈ k.live := by
        refine hk.tree.body_live (Graph.mem_functions.mp (he _ ?_)).1
        exact List.mem_append_right _ List.mem_cons_self
      have hentry : entryError? (infer g (.resolve g)).graph ∘
          Prod.map id f = entryError? (infer k (.resolve k)).graph :=
        funext (rinfer hok).entryError?
      rw [hentry]
      cases e.toList.findSome? (entryError? (infer k (.resolve k)).graph) with
      | some error => rfl
      | none =>
        refine congrArg Except.ok ?_
        rw [hstages]
        have htree := Graph.isTree_lowered hk.tree hcolor hok
        refine emit_copy (r.lowered hk hcolor hok) htree fields o fun item hitem i hi => ?_
        refine htree.body_live (Graph.mem_body_lowered hk.tree hcolor hok ?_)
        rcases List.mem_append.mp hitem with hitem | hitem
        · exact Graph.reachable_body (fun j hj => he j (List.mem_append_left _ hj)) hitem hi
        · exact Graph.reachable_body (fun j hj => he j (List.mem_append_right _ hj)) hitem hi

/-! ## Definitions -/

theorem EntryPoints.map_map (f h : Id → Id) (e : EntryPoints) :
    (e.map f).map h = e.map (h ∘ f) := by
  unfold EntryPoints.map
  rw [Option.map_map]
  rfl

theorem EntryPoints.map_id (e : EntryPoints) : e.map id = e := by
  unfold EntryPoints.map
  rw [Option.map_id]
  rfl

theorem EntryPoints.stages_map (f : Id → Id) (e : EntryPoints) :
    (e.map f).vertexStage ++ (e.map f).fragmentStage =
      (e.vertexStage ++ e.fragmentStage).map f := by
  unfold vertexStage fragmentStage EntryPoints.map
  cases e.pointSize <;> rfl

theorem EntryPoints.map_congr {f h : Id → Id} {e : EntryPoints}
    (hfh : ∀ i ∈ e.vertexStage ++ e.fragmentStage, f i = h i) : e.map f = e.map h := by
  unfold vertexStage fragmentStage at hfh
  unfold EntryPoints.map
  cases hp : e.pointSize <;> simp_all

open Graph

/-- The flat program `x` with nothing beside it, with the expected types of the entry points. -/
def compactHinted (x : Graph) (e : EntryPoints) : Graph :=
  (e.map x.position).attachHints x.compact.marked

theorem whole_compactHinted {x : Graph} (hx : x.IsTree) (e : EntryPoints) :
    (compactHinted x e).Whole := by
  refine (whole_compact hx).renamed ((marked_marked x.compact).changed.trans .trans ?_)
  exact (EntryPoints.changed_attachHints _ _).renamed_of_eq

theorem exists_copy_desugared {x : Graph} {e' : EntryPoints} (he' : e.map f = e')
    (ha : Alike True f x (g.flat e')) (hx : x.IsTree)
    (hlive : ∀ i ∈ e.vertexStage ++ e.fragmentStage, i ∈ x.live) :
    ∃ t, Graph.Copy True t (compactHinted x e) (Definition.desugared ⟨g, e'⟩) ∧
      (e.map x.position).map t = e' := by
  have hentries : (e.map x.position).map (x.unpack (g.flat e') f) = e' := by
    rw [EntryPoints.map_map, ← he']
    exact EntryPoints.map_congr fun i hi => unpack_position (hlive i hi)
  refine ⟨_, ?_, hentries⟩
  have rmarked := (ha.copy_unpack hx).marked (whole_compact hx)
  have rhints := rmarked.attachHints (e.map x.position)
  rw [hentries, ← flatten_graph] at rhints
  exact rhints

/-- **A definition and its copy compile to one shader or fail with one error.** Parents need not
correspond, as flattening links them anew. -/
theorem compile_copy (r : Graph.Copy False f k g) (hk : k.Whole) (hg : g.Unshared)
    (he : EntryPoints.locate k = .ok e) (o : Options) :
    (Definition.compile ⟨g, e.map f⟩ o).1 = (Definition.compile ⟨k, e⟩ o).1 := by
  have hd : Definition.ofGraph k = .ok ⟨k, e⟩ := Definition.ofGraph_of_locate (d := ⟨k, e⟩) he
  have hroots : ∀ i ∈ e.vertexStage ++ e.fragmentStage,
      i ∈ (Definition.desugared ⟨k, e⟩).functions := fun i hi =>
    (List.mem_append.mp hi).elim (Definition.roots_functions hd .vertex i)
      (Definition.roots_functions hd .fragment i)
  have hlive : ∀ i ∈ e.vertexStage ++ e.fragmentStage, i ∈ (k.flat e).live := by
    intro i hi
    rw [← (Definition.changed_desugared hd).live_eq]
    exact (Definition.isTree_desugared hd hk.tree).body_live (mem_functions.mp (hroots i hi)).1
  have hflat := isTree_flat hk.tree e
  obtain ⟨rflat, hfields⟩ := r.flat hk.tree e
  obtain ⟨t, rt, ht⟩ := exists_copy_desugared rfl (rflat.alike hflat (hg.isTree_flat _)) hflat hlive
  obtain ⟨u, ru, hu⟩ := exists_copy_desugared e.map_id (Alike.refl hflat) hflat hlive
  have hwhole := whole_compactHinted hflat e
  have hstages : ∀ i ∈ (e.map (k.flat e).position).vertexStage ++
      (e.map (k.flat e).position).fragmentStage, i ∈ (compactHinted (k.flat e) e).functions := by
    intro i hi
    rw [← List.mem_map_of_injective ru.inj, ← ru.functions]
    refine hroots _ ?_
    rw [← hu, EntryPoints.stages_map]
    exact List.mem_map_of_mem hi
  have hshader := shaderOf_copy rt hwhole hstages (flatten g (e.map f)).fields o
  have hshader' := shaderOf_copy ru hwhole hstages (flatten k e).fields o
  rw [Definition.compile_eq_shaderOf, Definition.compile_eq_shaderOf]
  unfold Definition.flattened
  rw [ht] at hshader
  rw [hu] at hshader'
  exact hshader.trans (hfields ▸ hshader'.symm)

/-- Finds the entry points of a program and compiles it. -/
def Graph.compile (g : Graph) (o : Options) : Except Error Shader :=
  Definition.ofGraph g >>= fun d => (d.compile o).1

theorem Graph.Copy.compile (r : Graph.Copy False f k g) (hk : k.Whole) (hg : g.Unshared)
    (o : Options) : g.compile o = k.compile o := by
  unfold Graph.compile Definition.ofGraph
  rw [r.locate]
  cases he : EntryPoints.locate k with
  | error p => rfl
  | ok e => exact compile_copy r hk hg he o

/-- Two programs with the same tree are copies of one. -/
theorem Graph.compile_congr {g g' : Graph} (hg : g.Unshared) (hg' : g'.Unshared) (hb : g.Bare)
    (hb' : g'.Bare) (ht : g.tree = g'.tree) (o : Options) : g.compile o = g'.compile o := by
  have hlink := hg.isTree_link
  obtain ⟨_, ha⟩ := exists_alike hg hg hb hb rfl
  obtain ⟨_, ha'⟩ := exists_alike hg hg' hb hb' ht
  rw [(ha.copy_unpack hlink).compile (whole_compact hlink) hg,
    (ha'.copy_unpack hlink).compile (whole_compact hlink) hg']

/-- **What a program compiles to depends on its tree alone.** Two programs without shared nodes and
without facts that unfold to the same tree compile to the same shader or fail with the same error,
whatever the numbers of their nodes and whatever else they hold. So a program that is built by hand
compiles as the document of the same program does. -/
theorem compile_eq_of_tree_eq (o : Options) :
    (∀ g g' : Graph, g.Unshared → g'.Unshared → g.Bare → g'.Bare → g.tree = g'.tree →
      g.compile o = g'.compile o) ∧
    ∀ (b : Build Unit) (document : Json) (g : Graph), Estree.ofJson document = .ok g →
      b.finish.Unshared → b.finish.Bare → b.finish.tree = g.tree →
      b.finish.compile o = g.compile o := by
  refine ⟨fun g g' hg hg' hb hb' ht => compile_congr hg hg' hb hb' ht o, ?_⟩
  intro b document g hdocument hb hbare ht
  obtain ⟨hg, hgbare⟩ := Estree.unshared_bare_ofJson hdocument
  exact compile_congr hb hg hbare hgbare ht o

/-- The program `function VertexPosition() { return [0, 0, 0, 1]; }
function FragmentColor() { return [1, 0, 0, 1]; }`, built by hand beside an unused node. -/
def redByHand : Build Unit := do
  let vector (components : List String) : Build Id := do
    Build.ret (some (← Build.array (← components.mapM Build.num)))
  let _ ← Build.ident "unused"
  let _ ← Build.function "VertexPosition" [] [← vector ["0", "0", "0", "1"]]
  let _ ← Build.function "FragmentColor" [] [← vector ["1", "0", "0", "1"]]

/-- The document of the same program. -/
def redDocument : Json :=
  let node (type : String) (fields : List (String × Json)) : Json :=
    .ofFields (("type", .str type) :: fields)
  let number (n : Nat) : Json :=
    node "Literal" [("value", .num (.int n)), ("raw", .str (toString n))]
  let function (name : String) (components : List Nat) : Json :=
    let vector := node "ArrayExpression" [("elements", .arr (components.map number))]
    let body := node "BlockStatement" [("body", .arr [node "ReturnStatement" [("argument", vector)]])]
    node "FunctionDeclaration"
      [("id", node "Identifier" [("name", .str name)]), ("params", .arr []), ("body", body)]
  node "Program" [("body", .arr [function "VertexPosition" [0, 0, 0, 1],
    function "FragmentColor" [1, 0, 0, 1]])]

/-- The two number their nodes differently and give one shader. -/
theorem compile_eq_of_tree_eq_red : ∃ g, Estree.ofJson redDocument = .ok g ∧
    redByHand.finish.live ≠ g.live ∧ redByHand.finish.compile {} = g.compile {} ∧
    (g.compile {}).toBool = true := by
  let g : Graph := (Estree.ofJson redDocument).toOption.getD default
  have hdocument : Estree.ofJson redDocument = .ok g := by decide +kernel
  refine ⟨g, hdocument, by decide +kernel, ?_, by decide +kernel⟩
  refine (compile_eq_of_tree_eq {}).2 redByHand redDocument g hdocument ?_ ?_ ?_ <;> decide +kernel

end ShaderScript
