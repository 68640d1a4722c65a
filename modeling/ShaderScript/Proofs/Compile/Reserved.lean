import ShaderScript.Builder
import ShaderScript.Proofs.Compile.Declared
import ShaderScript.Proofs.Compile.Header
import ShaderScript.Proofs.Flatten.Params
import ShaderScript.Proofs.Names.Distinct

/-!
# Reserved names

A mark stays on a variable and a stem on an input where the bare name is reserved. Parameters have
neither, so a parameter with a reserved name brings it into the text.

* `Definition.Introduces`: a stage introduces a name for an input, a parameter or a variable.
* `Known.not_isMarked_of_isReserved`: reserved names take no part in the final naming.
* `Definition.isReserved_header`, `Definition.isReserved_variable`: no input and no variable has a
  reserved name.
* `Definition.identName?_param_iff`: which parameters do.
* **`introduces_reserved_iff`**: a stage introduces a reserved name exactly if a parameter has it in
  the flat program.
* `introduces_keywordParameter`: a parameter spelled like a type.
-/

namespace ShaderScript

open Graph Naming

/-- A parameter keeps its name: no variable belongs with it, and it is not one that is renamed for
being spelled `out`. -/
def Graph.KeepsName (x : Graph) (p : Id) : Prop := x.Unclaimed p ∧ ¬ x.IsOut p

namespace Definition

/-- The node is part of an item of the stage. -/
def IsPart (d : Definition) (stage : Stage) (i : Id) : Prop :=
  ∃ item ∈ d.itemsOf stage, ∃ r, item.node? = some r ∧ i ∈ d.printed.descendants r

/-- The stage introduces the name: an input that it declares has it, or a parameter or a variable
in one of its items. -/
inductive Introduces (d : Definition) (stage : Stage) (name : String) : Prop
  | input {δ : FieldDecl} : δ ∈ d.header stage → δ.name = name → Introduces d stage name
  | param {p : Id} : d.IsPart stage p → d.printed.IsParam p → d.printed.identName? p = some name →
      Introduces d stage name
  | variable {v : Id} : d.IsPart stage v → d.printed.IsVariable v →
      d.printed.identName? v = some name → Introduces d stage name

end Definition

/-! ## Reserved names and marks -/

theorem Known.after?_localMark_of_isReserved {name : String} (hr : isReserved name = true) :
    after? localMark name = none := by
  have hlisted : ∀ name ∈ reservedNames, after? localMark name = none := by decide +kernel
  unfold isReserved at hr
  rcases Bool.or_eq_true_iff.mp hr with hgl | hmem
  · obtain ⟨rest, hrest⟩ := Option.isSome_iff_exists.mp hgl
    rw [eq_append_of_after? hrest, after?, String.toList_append]
    rfl
  · exact hlisted name (List.contains_iff_mem.mp hmem)

theorem Known.not_isMarked_of_isReserved {name : String} (hr : isReserved name = true) :
    ¬ IsMarked name := by
  rintro (⟨b, f, rfl⟩ | ⟨bare, hbare⟩)
  · rw [b.isReserved_flatName] at hr
    cases hr
  · rw [after?_localMark_of_isReserved hr] at hbare
    cases hbare

namespace Definition

variable {g : Graph} {d : Definition} {stage : Stage} {p v : Id} {name : String}

/-! ## Inputs -/

theorem isReserved_header {δ : FieldDecl} (hδ : δ ∈ d.header stage) :
    Known.isReserved δ.name = false := by
  have hmem : δ ∈ d.named.2 := (List.mem_filter.mp hδ).1
  rw [named, bareNames_snd] at hmem
  obtain ⟨ε, hε, rfl⟩ := List.mem_map.mp hmem
  rw [finalDecl_name]
  split_ifs with hl
  · exact (isFree_iff.mp (takesBareField_iff.mp hl).2.2).1
  · rw [BucketFields.declarations_name _ _ ε hε]
    exact Bucket.isReserved_flatName _ _

/-! ## Variables and parameters -/

section Trees

variable (hd : ofGraph g = .ok d) (h : g.IsTree)

include hd

theorem identName?_desugared (i : Id) :
    d.desugared.identName? i = (g.flat d.entries).marked.identName? i := by
  have hhints := (EntryPoints.changed_attachHints d.entries d.flattened.graph).sameShape
  rw [desugared, hhints.identName?, flattened, (ofGraph_eq_ok hd).1, flatten_graph]

include h

theorem exists_identName?_variable (hv : (g.flat d.entries).IsVariable v)
    (hname : d.desugared.identName? v = some name) : ∃ bare, name = localMark ++ bare := by
  rw [identName?_desugared hd] at hname
  exact exists_identName?_marked_variable (isTree_flat h d.entries) hv hname

/-- **A parameter has a reserved name exactly if it had and keeps it.** -/
theorem identName?_param_iff (hp : (g.flat d.entries).IsParam p)
    (hr : Known.isReserved name = true) : d.desugared.identName? p = some name ↔
      (g.flat d.entries).identName? p = some name ∧ (g.flat d.entries).KeepsName p := by
  have ht := isTree_flat h d.entries
  rw [identName?_desugared hd]
  cases hname : (g.flat d.entries).identName? p with
  | none =>
    have hnone : ((g.flat d.entries).marked.identName? p).isSome = false := by
      rw [(marked_marked _).changed.isSome_identName?, hname]
      rfl
    rw [Option.isSome_eq_false_iff, Option.isNone_iff_eq_none] at hnone
    simp [hnone]
  | some bare =>
    have hkey := key?_of_declared ht (.inl hp) hname
    by_cases hfree : (g.flat d.entries).Unclaimed p
    · obtain ⟨k, hk, hno⟩ := id hfree
      rw [identName?_marked_param ht hp hname fun v k' hv hkv hkp =>
        hno v hv (hkv.trans (hkp.symm.trans hk)), Option.some_inj, Option.some_inj, KeepsName]
      by_cases hout : (g.flat d.entries).IsOut p
      · have hne : outParamName ≠ name := by
          rintro rfl
          exact absurd hr (by decide +kernel)
        simp [hout, hne]
      · simp [hout, hfree]
    · -- a variable that belongs with the parameter has given it its mark
      obtain ⟨v, hv, hkv⟩ : ∃ v, (g.flat d.entries).IsVariable v ∧
          (g.flat d.entries).key? v = (g.flat d.entries).key? p := by
        by_contra hnone
        exact hfree ⟨_, hkey, fun v hv hkv => hnone ⟨v, hv, hkv.trans hkey.symm⟩⟩
      rw [identName?_of_variable ht hv (hkv.trans hkey) (hp.live ht) hkey, Option.some_inj]
      have hne : localMark ++ bare ≠ name := by
        rintro rfl
        have hnone := Known.after?_localMark_of_isReserved hr
        rw [after?_append] at hnone
        cases hnone
      simp [hne, KeepsName, hfree]

variable (hok : d.inferred.failure = none)

include hok

theorem isParam_of_printed (hp : d.printed.IsParam p) :
    (g.flat d.entries).IsParam p ∧ p < d.desugared.size := by
  obtain ⟨f, hf, fname, params, body, hk, hmem⟩ := hp
  rw [kind_printed_iff hd h hok rfl] at hk
  have hfl := live_of_printed hd h hok hf (lt_size_of_kind (hk ▸ nofun))
  have hc := changed_desugared hd
  refine ⟨⟨f, hc.live_eq ▸ hfl, fname, params, body, (hc.kind_eq_iff f rfl).mp hk, hmem⟩, ?_⟩
  refine (isTree_desugared hd h).child_lt f hfl p ?_
  rw [children, hk]
  exact List.mem_cons_of_mem _ (List.mem_append_left _ hmem)

theorem isParam_printed (hlive : p ∈ d.printed.live) (hp : (g.flat d.entries).IsParam p) :
    d.printed.IsParam p := by
  have hc := changed_desugared hd
  have ht := isTree_desugared hd h
  obtain ⟨f, hf, fname, params, body, hk, hmem⟩ := hp
  have hfl : f ∈ d.desugared.live := by rwa [hc.live_eq]
  have hkd := (hc.kind_eq_iff f rfl).mpr hk
  have hchild : p ∈ d.desugared.children f := by
    rw [children, hkd]
    exact List.mem_cons_of_mem _ (List.mem_append_left _ hmem)
  have hbelow : p ∈ d.desugared.descendants f :=
    (ht.mem_descendants_iff hfl).mpr ⟨1, .step .refl hchild⟩
  have hfp := (mem_descendants_printed_iff hd h hok hlive (ht.child_lt f hfl p hchild)
    (ht.lt_size hfl)).mpr ⟨hfl, hbelow⟩
  exact ⟨f, hfp.1, fname, params, body, (kind_printed_iff hd h hok rfl).mpr hkd, hmem⟩

theorem isVariable_of_printed (hv : d.printed.IsVariable v) :
    (g.flat d.entries).IsVariable v ∧ v < d.desugared.size := by
  obtain ⟨c, hc, init, hk⟩ := hv
  rw [kind_printed_iff hd h hok rfl] at hk
  have hcl := live_of_printed hd h hok hc (lt_size_of_kind (hk ▸ nofun))
  have hch := changed_desugared hd
  refine ⟨⟨c, hch.live_eq ▸ hcl, init, (hch.kind_eq_iff c rfl).mp hk⟩, ?_⟩
  refine (isTree_desugared hd h).child_lt c hcl v ?_
  rw [children, hk]
  exact List.mem_cons_self

/-- **No variable has a reserved name.** -/
theorem isReserved_variable (hv : d.printed.IsVariable v)
    (hname : d.printed.identName? v = some name) : Known.isReserved name = false := by
  obtain ⟨hvar, hlt⟩ := isVariable_of_printed hd h hok hv
  by_contra hr
  rw [Bool.not_eq_false] at hr
  rw [identName?_printed_iff_of_isReserved hd h hok hlt hr
    (Known.not_isMarked_of_isReserved hr)] at hname
  obtain ⟨bare, hbare⟩ := exists_identName?_variable hd h hvar hname
  have hnone := Known.after?_localMark_of_isReserved hr
  rw [hbare, after?_append] at hnone
  cases hnone

end Trees

end Definition

open Definition

/-- **Only parameters bring reserved names into the text.** In a program that compiles, a stage
introduces a reserved name exactly if one of its parameters has that name in the flat program and
keeps it: no variable belongs with the parameter, and it is not renamed for being spelled `out`. -/
theorem introduces_reserved_iff {g : Graph} (h : g.IsTree) {d : Definition}
    (hd : ofGraph g = .ok d) {o : Options} {s : Shader} (hs : (d.compile o).1 = .ok s)
    (stage : Stage) {name : String} (hr : Known.isReserved name = true) :
    d.Introduces stage name ↔ ∃ p, d.IsPart stage p ∧ (g.flat d.entries).IsParam p ∧
      (g.flat d.entries).identName? p = some name ∧ (g.flat d.entries).KeepsName p := by
  obtain ⟨-, hok⟩ := d.failure?_of_compile hs
  constructor
  · rintro (⟨hδ, rfl⟩ | ⟨hpart, hp, hname⟩ | ⟨-, hv, hname⟩)
    · rw [isReserved_header hδ] at hr
      cases hr
    · obtain ⟨hflat, hlt⟩ := isParam_of_printed hd h hok hp
      rw [identName?_printed_iff_of_isReserved hd h hok hlt hr
        (Known.not_isMarked_of_isReserved hr), identName?_param_iff hd h hflat hr] at hname
      exact ⟨_, hpart, hflat, hname⟩
    · rw [isReserved_variable hd h hok hv hname] at hr
      cases hr
  · rintro ⟨p, hpart, hflat, hname⟩
    obtain ⟨item, hitem, r, hnode, hmem⟩ := id hpart
    have hp := isParam_printed hd h hok (live_of_item hd h hok hitem hnode hmem) hflat
    refine .param hpart hp ?_
    rw [identName?_printed_iff_of_isReserved hd h hok (isParam_of_printed hd h hok hp).2 hr
      (Known.not_isMarked_of_isReserved hr), identName?_param_iff hd h hflat hr]
    exact hname

/-- The program `function f(float) { var int = float; return int; }
function VertexPosition() { return [f(1), 0, 0, 1]; }
function FragmentColor() { return [0, 0, 0, 1]; }`, with its entry points. -/
def keywordParameter : Definition where
  graph := Build.finish do
    let int ← Build.var "int" (some (← Build.ident "float"))
    let result ← Build.ret (some (← Build.ident "int"))
    let _ ← Build.function "f" ["float"] [int, result]
    let number ← Build.call (← Build.ident "f") [← Build.num "1"]
    let position ← Build.array
      [number, ← Build.num "0", ← Build.num "0", ← Build.num "1"]
    let _ ← Build.function "VertexPosition" [] [← Build.ret (some position)]
    let color ← Build.array
      [← Build.num "0", ← Build.num "0", ← Build.num "0", ← Build.num "1"]
    let _ ← Build.function "FragmentColor" [] [← Build.ret (some color)]
  entries := { vertexPosition := 20, fragmentColor := 29, pointSize := none }

-- one evaluation of the passes for all that is said about the program below
theorem passes_keywordParameter : keywordParameter.graph.IsTree ∧
    EntryPoints.locate keywordParameter.graph = .ok keywordParameter.entries ∧
    keywordParameter.failure? = none ∧ .function 9 ∈ keywordParameter.itemsOf .vertex ∧
    7 ∈ keywordParameter.printed.descendants 9 ∧ keywordParameter.printed.IsParam 7 ∧
    keywordParameter.printed.identName? 7 = some "float" ∧
    (keywordParameter.graph.flat keywordParameter.entries).IsParam 7 ∧
    (keywordParameter.graph.flat keywordParameter.entries).identName? 7 = some "float" ∧
    ¬ (keywordParameter.graph.flat keywordParameter.entries).IsOut 7 ∧
    (keywordParameter.graph.flat keywordParameter.entries).key? 7 = some (9, "float") ∧
    (∀ v ∈ (keywordParameter.graph.flat keywordParameter.entries).live,
      (keywordParameter.graph.flat keywordParameter.entries).IsVariable v →
        (keywordParameter.graph.flat keywordParameter.entries).key? v ≠ some (9, "float")) ∧
    (∀ p ∈ (keywordParameter.graph.flat keywordParameter.entries).live,
      (keywordParameter.graph.flat keywordParameter.entries).IsParam p →
        (keywordParameter.graph.flat keywordParameter.entries).identName? p ≠ some "int") ∧
    Known.isReserved "float" = true ∧ Known.isReserved "int" = true := by
  decide +kernel

/-- The parameter brings its name into the text, and the variable does not. -/
theorem introduces_reserved_iff_keywordParameter :
    keywordParameter.graph.IsTree ∧ ofGraph keywordParameter.graph = .ok keywordParameter ∧
    (∃ s, (keywordParameter.compile {}).1 = .ok s) ∧
    Known.isReserved "float" = true ∧ keywordParameter.Introduces .vertex "float" ∧
    Known.isReserved "int" = true ∧ ¬ keywordParameter.Introduces .vertex "int" := by
  obtain ⟨h, he, hf, hitem, hmem, -, -, hp, hname, hout, hkey, hfree, hint, hfloat, hreserved⟩ :=
    passes_keywordParameter
  have hd := ofGraph_of_locate he
  have hs := keywordParameter.compile_of_failure? (o := {}) hf
  have ht := isTree_flat h keywordParameter.entries
  refine ⟨h, hd, ⟨_, hs⟩, hfloat, ?_, hreserved, ?_⟩
  · refine (introduces_reserved_iff h hd hs .vertex hfloat).mpr
      ⟨7, ⟨_, hitem, 9, rfl, hmem⟩, hp, hname, ⟨_, hkey, fun v hv => ?_⟩, hout⟩
    exact hfree v (hv.live ht) hv
  · rw [introduces_reserved_iff h hd hs .vertex hreserved]
    rintro ⟨p, -, hp, hname, -⟩
    exact hint p (hp.live ht) hp hname

/-- **A parameter is introduced under the name of a type.** -/
theorem introduces_keywordParameter :
    keywordParameter.graph.IsTree ∧ ofGraph keywordParameter.graph = .ok keywordParameter ∧
    (∃ s, (keywordParameter.compile {}).1 = .ok s) ∧ Known.isReserved "float" = true ∧
    keywordParameter.Introduces .vertex "float" := by
  obtain ⟨h, he, hf, hitem, hmem, hp, hname, -, -, -, -, -, -, hfloat, -⟩ :=
    passes_keywordParameter
  exact ⟨h, ofGraph_of_locate he, ⟨_, keywordParameter.compile_of_failure? (o := {}) hf⟩,
    hfloat, .param ⟨_, hitem, 9, rfl, hmem⟩ hp hname⟩

end ShaderScript
