import ShaderScript.Proofs.Compile.Whitelist
import ShaderScript.Proofs.Flatten.Capture

/-!
# Whether calls of known functions stay what they are

A call of a known function is written with a name of the shading language, and so is a remainder.
Nothing keeps a program from having a function or a parameter of that name, and neither is ever
renamed. Variables are out of the way: their marks stay on where a name is reserved.

* `Definition.Uses`: a node is written with a name of the shading language.
* `Definition.Refers`: at a node of a stage, such a name refers to what the shading language has
  under it.
* `Known.isReserved_of_mem`, `Known.not_isMarked_of_mem`: the names of known functions take no part
  in the final naming.
* `Definition.kind_printed_iff`, `Definition.identName?_printed_iff`: what the last passes leave
  alone.
* `Definition.library_mem_or`: a helper is missing only where a function takes its place.
* **`refers_iff_unshadowed`**: a name refers to what it should exactly if no function of the stage
  and no parameter around the node has it.
* `shadowed_helperNamesake`: a function that takes the place of a helper.
-/

namespace ShaderScript

open Graph

/-- The node is a call of a name, or such a call is assigned there. -/
def Graph.WritesCall (x : Graph) (c : Id) (name : String) : Prop :=
  ∃ j, (j = c ∨ ∃ out, x.kind c = .assign .set out j) ∧ x.CallsAt j name

/-- The parameters of a function. -/
def Graph.paramsOf (x : Graph) (f : Id) : List Id :=
  match x.kind f with
  | .function _ params _ => params
  | _ => []

/-- The function that an item is. -/
def Item.function? : Item → Option Id
  | function f => some f
  | _ => none

/-- A function among the items has the name, or a parameter of a function around the node. -/
def Graph.Shadowed (x : Graph) (items : List Item) (c : Id) (name : String) : Prop :=
  (∃ f ∈ items.filterMap Item.function?, x.functionName? f = some name) ∨
  ∃ f ∈ x.live, c ∈ x.descendants f ∧ ∃ p ∈ x.paramsOf f, x.identName? p = some name

instance (x : Graph) (items : List Item) (c : Id) (name : String) :
    Decidable (x.Shadowed items c name) :=
  inferInstanceAs (Decidable (_ ∨ _))

theorem Graph.mem_paramsOf {x : Graph} {f p : Id} : p ∈ x.paramsOf f ↔
    ∃ fname params body, x.kind f = .function fname params body ∧ p ∈ params := by
  unfold paramsOf
  constructor
  · intro hp
    split at hp
    case h_1 fname params body hk => exact ⟨fname, params, body, hk, hp⟩
    case h_2 => cases hp
  · rintro ⟨fname, params, body, hk, hp⟩
    rw [hk]
    exact hp

theorem Item.mem_filterMap_function? {items : List Item} {f : Id} :
    f ∈ items.filterMap Item.function? ↔ .function f ∈ items := by
  rw [List.mem_filterMap]
  constructor
  · rintro ⟨item, hitem, hf⟩
    cases item <;> cases hf
    exact hitem
  · exact fun hf => ⟨_, hf, rfl⟩

namespace Definition

/-- A node is written with a name of the shading language: a call of a known function that is left
as it stands or renamed, or a remainder. -/
inductive Uses (d : Definition) (c : Id) : String → Prop
  | kept {e : Known.Entry} : d.calls.target? c = some (.known e) → e.form = .keep → Uses d c e.name
  | renamed {e : Known.Entry} {name : String} : d.calls.target? c = some (.known e) →
      e.form.target? = some name → Uses d c name
  | remainder {left right : Id} : d.printed.kind c = .binary .rem left right → Uses d c "mod"

/-- At a node of a stage, a name refers to what the shading language has under it: no function of
the stage, no parameter around the node and no variable has the name, and if it is the name of a
helper, the stage has the helper. -/
structure Refers (d : Definition) (stage : Stage) (c : Id) (name : String) : Prop where
  unshadowed : ¬ d.printed.Shadowed (d.itemsOf stage) c name
  unassigned : ∀ v, d.printed.IsVariable v → d.printed.identName? v ≠ some name
  helper : ∀ s, Known.snippet? name = some s → .library s ∈ d.itemsOf stage

end Definition

/-! ## Names of known functions -/

namespace Known

theorem mem_functionNames_of_keep {e : Entry} (he : e ∈ catalog) (hk : e.form = .keep) :
    e.name ∈ functionNames := by
  refine List.mem_append_left _ (List.mem_filter.mpr ⟨List.mem_map_of_mem he, ?_⟩)
  rw [Bool.not_eq_true', Bool.eq_false_iff]
  exact fun hdot => undotted_of_keep he hk (List.contains_iff_mem.mp hdot)

variable {name : String} (hname : name ∈ functionNames)

include hname

theorem plain_of_mem :
    (∀ b ∈ Bucket.all, after? b.stem name = none) ∧ after? localMark name = none ∧
      name ≠ "out" ∧ name ≠ outParamName := by
  have hall : ∀ name ∈ functionNames, (∀ b ∈ Bucket.all, after? b.stem name = none) ∧
      after? localMark name = none ∧ name ≠ "out" ∧ name ≠ outParamName := by
    decide +kernel
  exact hall name hname

theorem not_isMarked_of_mem : ¬ IsMarked name := by
  obtain ⟨hbucket, hlocal, -⟩ := plain_of_mem hname
  rintro (⟨b, f, rfl⟩ | ⟨bare, hbare⟩)
  · have hnone := hbucket b (by cases b <;> decide)
    rw [Bucket.flatName, after?_append] at hnone
    cases hnone
  · rw [hlocal] at hbare
    cases hbare

theorem unmarked_of_mem : Unmarked name := by
  obtain ⟨-, hlocal, hout, hparam⟩ := plain_of_mem hname
  refine ⟨hout, hparam, ?_⟩
  rintro m rfl
  rw [after?_append] at hlocal
  cases hlocal

end Known

theorem Known.snippet?_of_keep {e : Known.Entry} (he : e ∈ Known.catalog) (hk : e.form = .keep) :
    Known.snippet? e.name = none := by
  have hall : ∀ e ∈ Known.catalog, e.form = .keep → Known.snippet? e.name = none := by
    decide +kernel
  exact hall e he hk

theorem Known.snippet?_name {name : String} {s : Known.Snippet} (h : Known.snippet? name = some s) :
    s.name = name := by
  have hs : (s.name == name) = true := List.find?_some (p := fun s : Snippet => s.name == name) h
  exact eq_of_beq hs

namespace Definition

variable {g : Graph} {d : Definition}

theorem Uses.mem_functionNames {c : Id} {name : String} (hu : d.Uses c name) :
    name ∈ Known.functionNames := by
  have listed : ∀ {e}, d.calls.target? c = some (.known e) → e ∈ Known.catalog := fun ht =>
    (target_call (CallTable.mem_targets.mpr ht)).2.2 _ rfl
  cases hu with
  | kept ht hk => exact Known.mem_functionNames_of_keep (listed ht) hk
  | renamed ht htarget => exact Known.mem_functionNames_of_target (listed ht) htarget
  | remainder => decide +kernel

section Trees

variable (hd : ofGraph g = .ok d) (h : g.IsTree) (hok : d.inferred.failure = none)

include hd h hok

/-! ## What the last passes leave alone -/

theorem kind_printed_iff {i : Id} {k : Kind} (hk : k.isLasting = true) :
    d.printed.kind i = k ↔ d.desugared.kind i = k := by
  have hident : k.isIdent = false := by
    cases k <;> first | rfl | cases hk
  rw [renames_printed.changed.kind_eq_iff i hident,
    (callsLowered_lowered hd h hok).lowered.lasting i k hk, (changed_inferred hok).sameShape.kind]

theorem identName?_printed_iff_of_isReserved {i : Id} {name : String} (hi : i < d.desugared.size)
    (hr : Known.isReserved name = true) (hm : ¬ IsMarked name) :
    d.printed.identName? i = some name ↔ d.desugared.identName? i = some name := by
  have hs := (changed_inferred hok).sameShape
  have hlow := (callsLowered_lowered hd h hok).lowered
  have hlt : i < d.inferred.graph.size := by rw [hs.size]; exact hi
  rw [renames_printed.identName?_iff hr hm]
  refine ⟨fun hk => ?_, identName?_lowered hd h hok⟩
  rw [identName?_eq_some, ← hs.kind]
  exact hlow.ident hlt (identName?_eq_some.mp hk)

theorem identName?_printed_iff {i : Id} {name : String} (hi : i < d.desugared.size)
    (hname : name ∈ Known.functionNames) :
    d.printed.identName? i = some name ↔ d.desugared.identName? i = some name :=
  identName?_printed_iff_of_isReserved hd h hok hi (Known.isReserved_of_mem hname)
    (Known.not_isMarked_of_mem hname)

theorem functionName?_printed_iff {f : Id} {name : String} (hf : f ∈ d.desugared.live)
    (hname : name ∈ Known.functionNames) :
    d.printed.functionName? f = some name ↔ d.desugared.functionName? f = some name := by
  have spelled : ∀ (x : Graph), x.functionName? f = some name ↔ ∃ fname params body,
      x.kind f = .function fname params body ∧ x.identName? fname = some name := by
    intro x
    unfold functionName?
    constructor
    · intro hx
      split at hx
      case h_1 fname params body hk => exact ⟨fname, params, body, hk, hx⟩
      case h_2 => cases hx
    · rintro ⟨fname, params, body, hk, hx⟩
      rw [hk]
      exact hx
  rw [spelled, spelled]
  refine exists_congr fun fname => exists_congr fun params => exists_congr fun body => ?_
  rw [kind_printed_iff hd h hok rfl]
  refine and_congr_right fun hk => identName?_printed_iff hd h hok ?_ hname
  refine (isTree_desugared hd h).child_lt f hf fname ?_
  rw [children, hk]
  exact List.mem_cons_self

theorem live_of_printed {i : Id} (hi : i ∈ d.printed.live) (hlt : i < d.desugared.size) :
    i ∈ d.desugared.live := by
  rw [renames_printed.changed.live_eq] at hi
  have hroot : d.lowered.root = d.desugared.root :=
    (callsLowered_lowered hd h hok).lowered.root.trans (changed_inferred hok).root
  rw [live, hroot] at hi
  exact mem_descendants_of_lowered hd h hok (isTree_desugared hd h).root_live hi hlt

theorem mem_descendants_printed_iff {c f : Id} (hc : c ∈ d.printed.live)
    (hlt : c < d.desugared.size) (hf : f < d.desugared.size) :
    f ∈ d.printed.live ∧ c ∈ d.printed.descendants f ↔
      f ∈ d.desugared.live ∧ c ∈ d.desugared.descendants f := by
  have hs := (changed_inferred hok).sameShape
  have ht := isTree_lowered hd h hok
  have hr := d.renames_printed.changed
  constructor
  · rintro ⟨hfl, hcf⟩
    have hfd := live_of_printed hd h hok hfl hf
    rw [hr.descendants_eq] at hcf
    exact ⟨hfd, mem_descendants_of_lowered hd h hok hfd hcf hlt⟩
  · rintro ⟨hfl, hcf⟩
    obtain ⟨owner, hg⟩ := (callsLowered_lowered hd h hok).lowered.grown
    obtain ⟨n, hn⟩ := ((isTree_desugared hd h).mem_descendants_iff hfl).mp hcf
    rw [hr.live_eq] at hc
    obtain ⟨hroot, m, hm⟩ := hg.below_of_below (isTree_inferred hd h hok) (i := f) (j := c)
      (by rw [hs.live]; exact hfl) (by rw [hs.size]; exact hlt) (ht.mem_live_iff.mp hc)
      (hs.symm.below hn)
    have hfp := ht.mem_live_iff.mpr hroot
    rw [hr.live_eq, hr.descendants_eq]
    exact ⟨hfp, (ht.mem_descendants_iff hfp).mpr ⟨m, hm⟩⟩

/-- **No variable has the name of a known function.** -/
theorem identName?_variable_ne {v : Id} {name : String} (hv : d.printed.IsVariable v)
    (hname : name ∈ Known.functionNames) : d.printed.identName? v ≠ some name := by
  obtain ⟨p, hp, init, hk⟩ := hv
  rw [kind_printed_iff hd h hok rfl] at hk
  have hpl := live_of_printed hd h hok hp (lt_size_of_kind (hk ▸ nofun))
  have hvp : v ∈ d.desugared.children p := by
    rw [children, hk]
    exact List.mem_cons_self
  rw [ne_eq, identName?_printed_iff hd h hok ((isTree_desugared hd h).child_lt p hpl v hvp) hname]
  have hc := changed_desugared hd
  have hvar : (g.flat d.entries).IsVariable v :=
    ⟨p, hc.live_eq ▸ hpl, init, (hc.kind_eq_iff p rfl).mp hk⟩
  intro hv
  refine not_isVariable_of_unmarked (isTree_flat h d.entries) (Known.unmarked_of_mem hname) ?_ hvar
  have hhints := (EntryPoints.changed_attachHints d.entries d.flattened.graph).sameShape
  rw [desugared, hhints.identName?, flattened, (ofGraph_eq_ok hd).1, flatten_graph] at hv
  exact hv

/-! ## Shadows -/

variable {stage : Stage} {item : Item} {i c : Id} {name : String} (hitem : item ∈ d.itemsOf stage)
  (hi : item.node? = some i) (hc : c ∈ d.printed.descendants i) (hlt : c < d.desugared.size)

include hitem hi hc

theorem live_of_item : c ∈ d.printed.live := by
  have hil : i ∈ d.lowered.live :=
    (isTree_lowered hd h hok).body_live (mem_body_lowered hd h hok (item_body hd hitem hi))
  rw [renames_printed.changed.live_eq]
  rw [renames_printed.changed.descendants_eq] at hc
  obtain ⟨n, hn⟩ := ((isTree_lowered hd h hok).mem_descendants_iff hil).mp hc
  exact (isTree_lowered hd h hok).live_of_below hil hn

include hlt in
/-- **Shadows stay where they are.** -/
theorem shadowed_printed_iff (hname : name ∈ Known.functionNames) :
    d.printed.Shadowed (d.itemsOf stage) c name ↔
      d.desugared.Shadowed (d.itemsOf stage) c name := by
  have hcl := live_of_item hd h hok hitem hi hc
  have hparams : ∀ f p, p ∈ d.printed.paramsOf f ↔ p ∈ d.desugared.paramsOf f := by
    intro f p
    simp only [mem_paramsOf]
    refine exists_congr fun fname => exists_congr fun params => exists_congr fun body => ?_
    rw [kind_printed_iff hd h hok rfl]
  have hparam : ∀ {f}, f ∈ d.desugared.live → ∀ p ∈ d.desugared.paramsOf f,
      (d.printed.identName? p = some name ↔ d.desugared.identName? p = some name) := by
    intro f hf p hp
    obtain ⟨fname, params, body, hk, hp⟩ := mem_paramsOf.mp hp
    refine identName?_printed_iff hd h hok ((isTree_desugared hd h).child_lt f hf p ?_) hname
    rw [children, hk]
    exact List.mem_cons_of_mem _ (List.mem_append_left _ hp)
  have hlts : ∀ {f p}, p ∈ d.desugared.paramsOf f → f < d.desugared.size := by
    intro f p hp
    obtain ⟨fname, params, body, hk, -⟩ := mem_paramsOf.mp hp
    exact lt_size_of_kind (by rw [hk]; exact Kind.noConfusion)
  refine or_congr (exists_congr fun f => and_congr_right fun hf => ?_) ?_
  · exact functionName?_printed_iff hd h hok
      (item_live hd h (Item.mem_filterMap_function?.mp hf) rfl) hname
  · constructor
    · rintro ⟨f, hf, hcf, p, hp, hpn⟩
      rw [hparams] at hp
      obtain ⟨hfd, hcd⟩ :=
        (mem_descendants_printed_iff hd h hok hcl hlt (hlts hp)).mp ⟨hf, hcf⟩
      exact ⟨f, hfd, hcd, p, hp, (hparam hfd p hp).mp hpn⟩
    · rintro ⟨f, hfd, hcd, p, hp, hpn⟩
      obtain ⟨hf, hcf⟩ :=
        (mem_descendants_printed_iff hd h hok hcl hlt (hlts hp)).mpr ⟨hfd, hcd⟩
      exact ⟨f, hf, hcf, p, (hparams f p).mpr hp, (hparam hfd p hp).mpr hpn⟩

omit hitem hi hc in
theorem writesCall (hu : d.Uses c name) (hknown : (d.calls.known? c).isSome = true) :
    d.printed.WritesCall c name := by
  have hs := (changed_inferred hok).sameShape
  have hlow := callsLowered_lowered hd h hok
  have hname := hu.mem_functionNames
  have kept : ∀ {j k}, k.isIdent = false → d.lowered.kind j = k → d.printed.kind j = k :=
    fun hk => (renames_printed.changed.kind_eq_iff _ hk).mpr
  have ident : ∀ {j}, d.lowered.kind j = .ident name → d.printed.kind j = .ident name := fun hj =>
    identName?_eq_some.mp ((renames_printed.identName?_iff (Known.isReserved_of_mem hname)
      (Known.not_isMarked_of_mem hname) _).mpr (identName?_eq_some.mpr hj))
  cases hu with
  | @kept e ht hkeep =>
    obtain ⟨-, callee, args, hk, hv⟩ := CallTable.target?_call ht
    obtain ⟨he, hpath⟩ := verdict_known hv
    have hcallee := kind_of_dottedPath? hpath (Known.undotted_of_keep he hkeep)
    refine ⟨c, .inl rfl, callee, args, kept rfl ?_, ident ?_⟩
    · rw [hlow.same c callee args ((hs.kind c).trans hk), hs.kind, hk]
      intro e' he' hputs
      have ht' : d.calls.target? c = some (.known e') := CallTable.mem_targets.mp he'
      rw [ht] at ht'
      cases ht'
      rw [Known.Entry.Puts, hkeep] at hputs
      cases hputs.2
    · rw [hlow.lowered.other callee, hs.kind, hcallee]
      · rw [hs.size]
        exact lt_size_of_kind (by rw [hcallee]; exact Kind.noConfusion)
      · rw [hs.kind, hcallee]
        rfl
  | @renamed e _ ht htarget =>
    obtain ⟨hcl, callee, args, hk, -⟩ := CallTable.target?_call ht
    have hmem := CallTable.mem_targets.mpr ht
    have hlen : args.length = e.arity := by
      refine (infer_attached hok).2 c hcl e callee args ?_ hk
      unfold CallTable.known?
      rw [show d.calls.target? c = some (.known e) from ht]
    have hputs : e.Puts args := by
      refine ⟨hlen, hlen ▸ Known.takes_arity ((target_call hmem).2.2 e rfl) ?_ ?_⟩
      · intro hkeep
        rw [hkeep] at htarget
        cases htarget
      · cases hf : e.form <;> rw [hf] at htarget <;> first | rfl | cases htarget
    obtain ⟨j, hj, callee', args', hcall, hident⟩ :=
      (hlow.written c e callee args hmem ((hs.kind c).trans hk) hputs).target name htarget
    exact ⟨j, hj.imp_right fun ⟨_, out, hout⟩ => ⟨out, kept rfl hout⟩, callee', args',
      kept rfl hcall, ident hident⟩
  | remainder hk =>
    rw [kind_printed_iff hd h hok rfl] at hk
    unfold CallTable.known? at hknown
    split at hknown
    case h_1 e ht =>
      obtain ⟨-, _, _, hk', -⟩ := CallTable.target?_call ht
      rw [hk] at hk'
      cases hk'
    case h_2 => cases hknown

/-- **A helper is missing only where a function takes its place**: a stage has the helper that a node
below one of its items uses, or a function of that name. -/
theorem library_mem_or (hu : d.Uses c name) {s : Known.Snippet}
    (hsnip : Known.snippet? name = some s) : .library s ∈ d.itemsOf stage ∨
      ∃ f, .function f ∈ d.itemsOf stage ∧ d.desugared.functionName? f = some name := by
  cases hu with
  | @kept e ht hkeep =>
    have he := (target_call (CallTable.mem_targets.mpr ht)).2.2 e rfl
    rw [Known.snippet?_of_keep he hkeep] at hsnip
    cases hsnip
  | @renamed e _ ht htarget =>
    obtain ⟨hcl, callee, args, hk, -⟩ := CallTable.target?_call ht
    rw [renames_printed.changed.descendants_eq] at hc
    have hcd := mem_descendants_of_lowered hd h hok (item_live hd h hitem hi) hc
      (lt_size_of_kind (hk ▸ nofun))
    have hneeds : d.desugared.Needs item (.library s) := .helper hi hcd hk ht htarget hsnip
    -- the mark of the helper is its name, which may be that of a function
    obtain ⟨b, hb, hmark⟩ := exists_mark_of_needs hitem hneeds rfl
    cases b with
    | function f =>
      refine .inr ⟨f, hb, ?_⟩
      obtain ⟨fname, hfname, he⟩ := Option.map_eq_some_iff.mp hmark
      rw [hfname, Sum.inl.inj he, Known.snippet?_name hsnip]
    | global stmt => cases hmark
    | library s' =>
      rcases mem_reachable hb with ⟨f, -, hf⟩ | ⟨a, -, hneeds'⟩
      · cases hf
      cases hneeds' with
      | helper _ _ _ _ _ hs' =>
        have hsame : s'.name = s.name := Sum.inl.inj (Option.some.inj hmark)
        rw [← Known.snippet?_name hs', hsame, Known.snippet?_name hsnip, hsnip] at hs'
        cases hs'
        exact .inl hb
  | remainder => cases hsnip

omit hd h hok hitem hi hc in
theorem functionName?_ne_of_keep {e : Known.Entry} (ht : d.calls.target? c = some (.known e))
    (hkeep : e.form = .keep) {f : Id} (hf : f ∈ d.desugared.functions) :
    d.desugared.functionName? f ≠ some e.name := by
  obtain ⟨-, callee, args, -, hv⟩ := CallTable.target?_call ht
  obtain ⟨he, hpath⟩ := verdict_known hv
  have hcallee := kind_of_dottedPath? hpath (Known.undotted_of_keep he hkeep)
  have hnone := userFunction?_of_known hv
  rw [userFunction?, identName?_eq_some.mpr hcallee, Option.bind_some] at hnone
  exact fun hfn => List.find?_eq_none.mp hnone f hf (beq_iff_eq.mpr hfn)

end Trees

end Definition

/-- The program `function _mat4_multiplyVec3(m, v) { return v; }
function VertexPosition() { var a = _mat4_multiplyVec3(uniforms.m, uniforms.v);
return mat4.multiplyVec3(uniforms.m, uniforms.v); }
function FragmentColor() { return mat4.multiplyVec3(uniforms.m, uniforms.v); }`, with its entry
points. -/
def helperNamesake : Definition where
  graph := Build.finish do
    let product (callee : Build Id) : Build Id := do
      let m ← Build.field (← Build.ident "uniforms") "m"
      let v ← Build.field (← Build.ident "uniforms") "v"
      Build.call (← callee) [m, v]
    let known : Build Id := do Build.field (← Build.ident "mat4") "multiplyVec3"
    let v ← Build.ident "v"
    let _ ← Build.function "_mat4_multiplyVec3" ["m", "v"] [← Build.ret (some v)]
    let a ← Build.var "a" (some (← product (Build.ident "_mat4_multiplyVec3")))
    let position ← Build.ret (some (← product known))
    let _ ← Build.function "VertexPosition" [] [a, position]
    let _ ← Build.function "FragmentColor" [] [← Build.ret (some (← product known))]
  entries := { vertexPosition := 31, fragmentColor := 45, pointSize := none }

/-- The known function that the product is in the script. -/
def matrixProduct : Known.Entry where
  name := "mat4.multiplyVec3"
  params := [.mat4, .vec3]
  ret := .vec3
  form := .rename "_mat4_multiplyVec3"

-- one evaluation of the passes for all that is said about the program below
theorem passes_helperNamesake : helperNamesake.graph.IsTree ∧
    EntryPoints.locate helperNamesake.graph = .ok helperNamesake.entries ∧
    helperNamesake.failure? = none ∧
    .function 31 ∈ helperNamesake.itemsOf .vertex ∧
    .function 45 ∈ helperNamesake.itemsOf .fragment ∧
    27 ∈ helperNamesake.printed.descendants 31 ∧ 41 ∈ helperNamesake.printed.descendants 45 ∧
    (∀ c ∈ [27, 41], helperNamesake.calls.target? c = some (.known matrixProduct)) ∧
    helperNamesake.printed.Shadowed (helperNamesake.itemsOf .vertex) 27 "_mat4_multiplyVec3" ∧
    ¬ helperNamesake.desugared.Shadowed (helperNamesake.itemsOf .fragment) 41
      "_mat4_multiplyVec3" := by
  decide +kernel

end ShaderScript
