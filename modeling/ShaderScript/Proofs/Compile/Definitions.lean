import ShaderScript.Builder
import ShaderScript.Proofs.Compile.Reserved

/-!
# What a stage defines

The top level of a stage has the inputs that it declares, functions, variables, helpers and `main`.
Functions are known by their names and final names are only given where they are free, so most of
these names are distinct. Nothing looks at the names of all of them together, though.

* `Definition.definitions`: the names that a stage defines.
* `Definition.Separate`: nothing in the flat program makes two of them equal.
* `Definition.Standing`: an identifier of the flat program that is still there, and
  `Definition.Standing.same_iff`: two of them are printed alike exactly if they had one name.
* `Definition.Standing.declared_iff`: when one of them is printed like an input.
* **`definitions_nodup_iff`**: the names that a stage defines are distinct exactly if it is
  separate.
* `definitions_secondMain`: a program with two functions `main`.
-/

namespace ShaderScript

open Graph Naming

/-- The variables that a `var` statement declares. -/
def Graph.declaredIds (x : Graph) (stmt : Id) : List Id :=
  match x.kind stmt with
  | .varDecl ds => ds.filterMap fun d =>
    match x.kind d with
    | .declarator name _ => some name
    | _ => none
  | _ => []

theorem Graph.mem_declaredIds {x : Graph} {stmt v : Id} : v ∈ x.declaredIds stmt ↔
    ∃ ds, x.kind stmt = .varDecl ds ∧ ∃ d ∈ ds, ∃ init, x.kind d = .declarator v init := by
  unfold declaredIds
  constructor
  · intro hv
    split at hv
    case h_2 => cases hv
    case h_1 ds hk =>
      obtain ⟨d, hd, hv⟩ := List.mem_filterMap.mp hv
      split at hv
      case h_2 => cases hv
      case h_1 name init hkd => exact ⟨ds, hk, d, hd, init, Option.some.inj hv ▸ hkd⟩
  · rintro ⟨ds, hk, d, hd, init, hkd⟩
    rw [hk]
    refine List.mem_filterMap.mpr ⟨d, hd, ?_⟩
    rw [hkd]

/-- The `var` statement that an item is. -/
def Item.global? : Item → Option Id
  | global stmt => some stmt
  | _ => none

/-- The helper that an item is. -/
def Item.helper? : Item → Option Known.Snippet
  | library s => some s
  | _ => none

namespace Definition

variable (d : Definition) (stage : Stage)

/-- The inputs of the program, under their flat names. -/
def inputs : List FieldDecl := d.flattened.fields.declarations d.lowered

/-- The functions of a stage. -/
def functionsOf : List Id := (d.itemsOf stage).filterMap Item.function?

/-- The top-level variables of a stage. -/
def variablesOf : List Id :=
  ((d.itemsOf stage).filterMap Item.global?).flatMap d.printed.declaredIds

/-- The helpers of a stage. -/
def helpersOf : List Known.Snippet := (d.itemsOf stage).filterMap Item.helper?

/-- The names that a stage defines: those of its inputs, functions, variables and helpers, and
`main`. -/
def definitions : List String :=
  (d.header stage).map FieldDecl.name ++
    ((d.functionsOf stage).filterMap d.printed.functionName? ++
      ((d.variablesOf stage).filterMap d.printed.identName? ++
        ((d.helpersOf stage).map Known.Snippet.name ++ ["main"])))

/-- Nothing makes two definitions of a stage share a name. -/
structure Separate : Prop where
  /-- No function is spelled `main`. -/
  main : ∀ f ∈ d.functionsOf stage, d.desugared.functionName? f ≠ some "main"
  /-- No two variables have one name in the flat program. -/
  distinct : ((d.variablesOf stage).filterMap d.desugared.identName?).Nodup
  /-- No function has the name of a variable in the flat program. -/
  functions : ∀ f ∈ d.functionsOf stage, ∀ v ∈ d.variablesOf stage, ∀ name,
    d.desugared.functionName? f = some name → d.desugared.identName? v ≠ some name
  /-- No input that loses its stem is spelled like one that keeps it. -/
  stems : ∀ δ ∈ d.header stage, ∀ δ' ∈ d.header stage, δ.name = δ.field →
    δ'.name = δ'.bucket.flatName δ'.field → δ.name ≠ δ'.name
  /-- No function with the flat name of an input ends up with the name of one that is declared. -/
  inputs : ∀ f ∈ d.functionsOf stage, ∀ ε ∈ d.inputs, d.desugared.functionName? f = some ε.name →
    ∀ δ ∈ d.header stage, finalName d.lowered d.inputs ε.name ≠ δ.name
  /-- If an input keeps its stem and its flat name is not in use, nothing that loses a mark has that
  name behind it. -/
  marks : ∀ δ ∈ d.header stage, δ.name = δ.bucket.flatName δ.field →
    δ.name ∉ taken d.lowered d.inputs →
      (∀ f ∈ d.functionsOf stage, d.desugared.functionName? f ≠ some (localMark ++ δ.name)) ∧
      ∀ v ∈ d.variablesOf stage, d.desugared.identName? v ≠ some (localMark ++ δ.name)

end Definition

theorem some_ne_some_iff {α : Type} {a b : Option α} :
    (∀ x, a = some x → ∀ y, b = some y → x ≠ y) ↔ (a.isSome = true → a ≠ b) := by
  cases a <;> cases b <;> simp

theorem marks_reachable (g : Graph) (roots : List Id) :
    (reachable g roots (CallTable.resolve g)).Pairwise (fun a b => a.mark? g ≠ b.mark? g) ∧
      ∀ a ∈ reachable g roots (CallTable.resolve g), ∃ m, a.mark? g = some m := by
  obtain ⟨r, hw⟩ := exists_walked_reachable g roots
  refine ⟨hw.distinct, fun a ha => ?_⟩
  obtain ⟨m, hm, -⟩ := hw.fresh a ha
  exact ⟨m, hm⟩

/-! ## Inputs -/

namespace BucketFields

variable {fs : BucketFields}

theorem nodup_used_insert (h : fs.used.Nodup) (b : Bucket) (f : String) :
    (fs.insert b f).used.Nodup := by
  unfold insert
  split_ifs with hmem
  · exact h
  · refine List.nodup_append.mpr ⟨h, List.nodup_singleton _, fun p hp q hq => ?_⟩
    rw [List.mem_singleton.mp hq]
    rintro rfl
    exact hmem (List.contains_iff_mem.mpr hp)

theorem nodup_toList (h : fs.used.Nodup) : fs.toList.Nodup := by
  have hfst : ∀ b, ∀ p ∈ (fs.get b).map fun f => (b, f), p.1 = b := by
    intro b p hp
    obtain ⟨f, -, rfl⟩ := List.mem_map.mp hp
    rfl
  refine List.nodup_flatMap.mpr ⟨fun b _ => ?_, ?_⟩
  · have hget : (fs.get b).Nodup := by
      refine List.Nodup.map_on (fun p hp q hq he => ?_) (h.filter _)
      have hfsts := (beq_iff_eq.mp (List.mem_filter.mp hp).2).trans
        (beq_iff_eq.mp (List.mem_filter.mp hq).2).symm
      exact Prod.ext hfsts he
    exact hget.map fun f f' he => (Prod.mk.inj he).2
  · have hall : Bucket.all.Nodup := by decide
    refine hall.imp fun {b b'} hne p hp hp' => hne ?_
    rw [← hfst b p hp, hfst b' p hp']

end BucketFields

theorem nodup_fields_flatten (g : Graph) (e : EntryPoints) : (flatten g e).fields.used.Nodup := by
  have hfold : ∀ x : Graph, x.flattenBuckets.2.used.Nodup := by
    intro x
    refine List.foldlRecOn (motive := fun s : Graph × BucketFields => s.2.used.Nodup) x.live _
      List.nodup_nil fun s hs i _ => ?_
    obtain ⟨x, fields⟩ := s
    unfold Graph.flattenBucket
    dsimp only
    split
    · exact BucketFields.nodup_used_insert hs _ _
    · exact hs
  exact hfold _

theorem Known.isReserved_main : Known.isReserved "main" = true := by
  decide +kernel

namespace Definition

variable {g : Graph} {d : Definition} {stage : Stage} {δ : FieldDecl} {f i j v : Id}
  {name : String}

theorem inputs_name {ε : FieldDecl} (hε : ε ∈ d.inputs) :
    ε.name = ε.bucket.flatName ε.field :=
  BucketFields.declarations_name _ _ ε hε

theorem nodup_inputs (d : Definition) : (d.inputs.map fun ε => (ε.bucket, ε.field)).Nodup := by
  have hpairs : (d.inputs.map fun ε => (ε.bucket, ε.field)) = d.flattened.fields.toList := by
    rw [inputs, BucketFields.declarations, List.map_map]
    exact List.map_id _
  rw [hpairs]
  exact BucketFields.nodup_toList (nodup_fields_flatten _ _)

theorem exists_input (hδ : δ ∈ d.header stage) :
    ∃ ε ∈ d.inputs, δ = finalDecl d.lowered d.inputs ε := by
  have hmem : δ ∈ d.named.2 := (List.mem_filter.mp hδ).1
  rw [named, bareNames_snd] at hmem
  obtain ⟨ε, hε, rfl⟩ := List.mem_map.mp hmem
  exact ⟨ε, hε, rfl⟩

/-- **The inputs of a stage have different names** exactly if none that loses its stem is spelled
like one that keeps it. -/
theorem nodup_header_iff : ((d.header stage).map FieldDecl.name).Nodup ↔
    ∀ δ ∈ d.header stage, ∀ δ' ∈ d.header stage, δ.name = δ.field →
      δ'.name = δ'.bucket.flatName δ'.field → δ.name ≠ δ'.name := by
  constructor
  · intro hnodup δ hδ δ' hδ' hbare hflat he
    obtain rfl := List.inj_on_of_nodup_map hnodup hδ hδ' he
    exact Bucket.flatName_ne _ _ (hflat.symm.trans hbare)
  · intro hstems
    have hheader : (d.header stage).Nodup := by
      have hpairs : ((d.inputs.map (finalDecl d.lowered d.inputs)).map
          fun ε => (ε.bucket, ε.field)).Nodup := by
        simpa [List.map_map, Function.comp_def] using d.nodup_inputs
      rw [header, named, bareNames_snd]
      exact (List.Nodup.of_map _ hpairs).filter _
    refine List.Nodup.map_on (fun δ hδ δ' hδ' he => ?_) hheader
    obtain ⟨ε, hε, rfl⟩ := exists_input hδ
    obtain ⟨ε', hε', rfl⟩ := exists_input hδ'
    have mixed : ∀ {ε ε'}, ε' ∈ d.inputs → finalDecl d.lowered d.inputs ε ∈ d.header stage →
        finalDecl d.lowered d.inputs ε' ∈ d.header stage →
        losesStem d.lowered d.inputs ε = true → losesStem d.lowered d.inputs ε' = false →
        (finalDecl d.lowered d.inputs ε).name ≠ (finalDecl d.lowered d.inputs ε').name := by
      intro ε ε' hε' hδ hδ' hl hl'
      refine hstems _ hδ _ hδ' ?_ ?_
      · rw [finalDecl_name, if_pos hl, finalDecl_field]
      · rw [finalDecl_name, hl', if_neg Bool.false_ne_true, inputs_name hε', finalDecl_bucket,
          finalDecl_field]
    by_cases hsame : losesStem d.lowered d.inputs ε = losesStem d.lowered d.inputs ε'
    · obtain ⟨hb, hf⟩ := eq_of_finalDecl_name (fun _ => inputs_name) hε hε' hsame he
      rw [List.inj_on_of_nodup_map d.nodup_inputs hε hε' (Prod.ext hb hf)]
    · cases hl : losesStem d.lowered d.inputs ε <;> cases hl' : losesStem d.lowered d.inputs ε'
      · exact absurd (hl.trans hl'.symm) hsame
      · exact absurd he.symm (mixed hε hδ' hδ hl' hl)
      · exact absurd he (mixed hε' hδ hδ' hl hl')
      · exact absurd (hl.trans hl'.symm) hsame

/-! ## Functions and variables -/

/-- The identifier stands for a variable of the flat program, and it is still there. -/
structure Standing (d : Definition) (i : Id) : Prop where
  live : i ∈ d.lowered.live
  plain : d.lowered.isPropertyName i = false
  lt : i < d.desugared.size

section Trees

variable (hd : ofGraph g = .ok d) (h : g.IsTree) (hok : d.inferred.failure = none)

include hd h hok

theorem identName?_lowered_eq (hi : i < d.desugared.size) :
    d.lowered.identName? i = d.desugared.identName? i := by
  have hs := (changed_inferred hok).sameShape
  have hlt : i < d.inferred.graph.size := by rw [hs.size]; exact hi
  refine Option.ext fun name => ⟨fun hk => ?_, identName?_lowered hd h hok⟩
  rw [identName?_eq_some, ← hs.kind]
  exact (callsLowered_lowered hd h hok).lowered.ident hlt (identName?_eq_some.mp hk)

/-- **Two identifiers are printed alike exactly if they had one name.** -/
theorem Standing.same_iff (hi : d.Standing i) (hj : d.Standing j) :
    d.printed.identName? i = d.printed.identName? j ↔
      d.desugared.identName? i = d.desugared.identName? j := by
  refine (identName?_bareNames_inj hi.live hj.live hi.plain hj.plain).trans ?_
  rw [identName?_lowered_eq hd h hok hi.lt, identName?_lowered_eq hd h hok hj.lt]

theorem Standing.identName?_printed (hi : d.Standing i)
    (hname : d.desugared.identName? i = some name) :
    d.printed.identName? i = some (finalName d.lowered d.inputs name) := by
  refine identName?_bareNames hi.live hi.plain ?_
  rw [identName?_lowered_eq hd h hok hi.lt, hname]

/-- **When an identifier is printed like an input**, though it has the flat name of none: it loses a
mark in front of the flat name of one that keeps its stem. -/
theorem Standing.declared_iff (hi : d.Standing i) (hname : d.desugared.identName? i = some name)
    (hne : ∀ ε ∈ d.inputs, ε.name ≠ name) (hδ : δ ∈ d.header stage) :
    d.printed.identName? i = some δ.name ↔
      δ.name = δ.bucket.flatName δ.field ∧ δ.name ∉ taken d.lowered d.inputs ∧
        name = localMark ++ δ.name := by
  have hlow : d.lowered.identName? i = some name := by
    rw [identName?_lowered_eq hd h hok hi.lt, hname]
  obtain ⟨ε, hε, rfl⟩ := exists_input hδ
  have hempty : ε.name ≠ "" := by
    intro he
    have hmem := Bucket.underscore_mem_flatName ε.bucket ε.field
    rw [← inputs_name hε, he] at hmem
    cases hmem
  have hfree : Known.isReserved ε.name = false := by
    rw [inputs_name hε]
    exact Bucket.isReserved_flatName _ _
  rw [hi.identName?_printed hd h hok hname, Option.some_inj,
    finalName_eq_iff (mem_identifierNames hi.live hi.plain hlow) hne hε hempty hfree,
    finalDecl_name, finalDecl_bucket, finalDecl_field]
  cases hl : losesStem d.lowered d.inputs ε with
  | true => exact ⟨fun he => (nomatch he.1), fun he => absurd he.1.symm (Bucket.flatName_ne _ _)⟩
  | false => simp only [inputs_name hε, Bool.false_eq_true, if_false, true_and]

/-! ## Items -/

theorem isTree_printed : d.printed.IsTree :=
  renames_printed.changed.isTree_of_renamed (isTree_lowered hd h hok)

theorem item_printed_live {item : Item} (hitem : item ∈ d.itemsOf stage)
    (hi : item.node? = some i) : i ∈ d.printed.live := by
  rw [renames_printed.changed.live_eq]
  exact (isTree_lowered hd h hok).body_live
    (mem_body_lowered hd h hok (item_body hd hitem hi))

/-- An identifier below a node that is no access is not a property. -/
theorem Standing.of_child {p : Id} (hp : p ∈ d.printed.live) (hc : i ∈ d.printed.children p)
    (hk : (d.printed.kind p).isLasting = true) (hfield : ∀ o q, d.printed.kind p ≠ .field o q) :
    d.Standing i := by
  have ht := isTree_printed hd h hok
  have hkd : d.desugared.kind p = d.printed.kind p := (kind_printed_iff hd h hok hk).mp rfl
  refine ⟨?_, ?_, ?_⟩
  · rw [← renames_printed.changed.live_eq]
    exact ht.child_live hp hc
  · rw [← renames_printed.changed.isPropertyName_eq, Bool.eq_false_iff]
    intro hprop
    obtain ⟨q, o, hparent, hq⟩ := isPropertyName_iff.mp hprop
    rw [ht.parent_child p hp i hc] at hparent
    cases hparent
    exact hfield o i hq
  · have hlt : p < d.desugared.size := by
      refine lt_size_of_kind ?_
      rw [hkd]
      rintro he
      rw [he] at hk
      cases hk
    refine (isTree_desugared hd h).child_lt p (live_of_printed hd h hok hp hlt) i ?_
    rw [children, hkd]
    exact hc

theorem exists_standing_function (hf : f ∈ d.functionsOf stage) : ∃ i, d.Standing i ∧
    d.printed.functionName? f = d.printed.identName? i ∧
    d.desugared.functionName? f = d.desugared.identName? i := by
  have hitem := Item.mem_filterMap_function?.mp hf
  obtain ⟨m, hm⟩ := (marks_reachable d.desugared (d.roots stage)).2 _ hitem
  obtain ⟨name, hname, -⟩ := Option.map_eq_some_iff.mp hm
  unfold functionName? at hname
  split at hname
  case h_2 => cases hname
  case h_1 fname params body hk =>
    have hkp := (kind_printed_iff hd h hok rfl).mpr hk
    refine ⟨fname, .of_child hd h hok (item_printed_live hd h hok hitem rfl) ?_ ?_ ?_, ?_, ?_⟩
    · rw [children, hkp]
      exact List.mem_cons_self
    · rw [hkp]
      rfl
    · rw [hkp]
      intro _ _ hk'
      cases hk'
    · rw [functionName?, hkp]
    · rw [functionName?, hk]

theorem standing_variable (hv : v ∈ d.variablesOf stage) :
    d.Standing v ∧ d.printed.IsVariable v := by
  have ht := isTree_printed hd h hok
  obtain ⟨stmt, hstmt, hv⟩ := List.mem_flatMap.mp hv
  obtain ⟨item, hitem, hi⟩ := List.mem_filterMap.mp hstmt
  cases item <;> cases hi
  obtain ⟨ds, hk, c, hc, init, hkc⟩ := mem_declaredIds.mp hv
  have hcl : c ∈ d.printed.live := by
    refine ht.child_live (item_printed_live hd h hok hitem rfl) ?_
    rw [children, hk]
    exact hc
  refine ⟨.of_child hd h hok hcl ?_ ?_ ?_, c, hcl, init, hkc⟩
  · rw [children, hkc]
    exact List.mem_cons_self
  · rw [hkc]
    rfl
  · rw [hkc]
    intro _ _ hk'
    cases hk'

/-! ## Names of one kind -/

theorem Standing.isSome_identName? (hi : d.Standing i) :
    (d.printed.identName? i).isSome = (d.desugared.identName? i).isSome := by
  rw [renames_printed.changed.isSome_identName?, identName?_lowered_eq hd h hok hi.lt]

/-- **The variables of a stage have different names** exactly if they had in the flat program. -/
theorem nodup_variables_iff : ((d.variablesOf stage).filterMap d.printed.identName?).Nodup ↔
    ((d.variablesOf stage).filterMap d.desugared.identName?).Nodup := by
  unfold List.Nodup
  rw [List.pairwise_filterMap, List.pairwise_filterMap]
  refine List.Pairwise.iff_of_mem fun {v w} hv hw => ?_
  have hsv := (standing_variable hd h hok hv).1
  have hsw := (standing_variable hd h hok hw).1
  rw [some_ne_some_iff, some_ne_some_iff, hsv.isSome_identName? hd h hok, ne_eq, ne_eq,
    hsv.same_iff hd h hok hsw]

theorem functionName?_same_iff {f' : Id} (hf : f ∈ d.functionsOf stage)
    (hf' : f' ∈ d.functionsOf stage) :
    d.printed.functionName? f = d.printed.functionName? f' ↔
      d.desugared.functionName? f = d.desugared.functionName? f' := by
  obtain ⟨i, hi, hip, hid⟩ := exists_standing_function hd h hok hf
  obtain ⟨j, hj, hjp, hjd⟩ := exists_standing_function hd h hok hf'
  rw [hip, hjp, hid, hjd]
  exact hi.same_iff hd h hok hj

theorem nodup_functions :
    ((d.functionsOf stage).filterMap d.printed.functionName?).Nodup := by
  have hmarks := (marks_reachable d.desugared (d.roots stage)).1
  have hnames : (d.functionsOf stage).Pairwise fun f f' =>
      d.desugared.functionName? f ≠ d.desugared.functionName? f' := by
    refine hmarks.filterMap _ fun a a' hne f hf f' hf' he => hne ?_
    cases a <;> cases hf
    cases a' <;> cases hf'
    exact congrArg (Option.map Sum.inl) he
  refine List.pairwise_filterMap.mpr (hnames.imp_of_mem fun {f f'} hf hf' hne => ?_)
  rw [some_ne_some_iff]
  exact fun _ he => hne ((functionName?_same_iff hd h hok hf hf').mp he)

omit hd h hok in
theorem nodup_helpers : ((d.helpersOf stage).map Known.Snippet.name).Nodup := by
  have hmarks := (marks_reachable d.desugared (d.roots stage)).1
  refine List.pairwise_map.mpr (hmarks.filterMap _ fun a a' hne s hs s' hs' he => hne ?_)
  cases a <;> cases hs
  cases a' <;> cases hs'
  exact congrArg (fun name => some (Sum.inl name)) he

/-! ## Names of different kinds -/

omit hd h hok in
theorem mem_helpersOf {s : Known.Snippet} :
    s ∈ d.helpersOf stage ↔ .library s ∈ d.itemsOf stage := by
  rw [helpersOf, List.mem_filterMap]
  constructor
  · rintro ⟨item, hitem, hs⟩
    cases item <;> cases hs
    exact hitem
  · exact fun hs => ⟨_, hs, rfl⟩

omit hd h hok in
theorem isReserved_helper {s : Known.Snippet} (hs : s ∈ d.helpersOf stage) :
    Known.isReserved s.name = true ∧ s.name ≠ "main" := by
  have hall : ∀ s ∈ Known.snippets, Known.isReserved s.name = true ∧ s.name ≠ "main" := by
    decide +kernel
  rcases mem_reachable (mem_helpersOf.mp hs) with ⟨f, -, hf⟩ | ⟨a, -, hneeds⟩
  · cases hf
  · cases hneeds with
    | helper _ _ _ _ _ hsnippet => exact hall s (List.mem_of_find?_eq_some hsnippet)

/-- A function has a reserved name exactly if it had in the flat program. -/
theorem functionName?_eq_reserved_iff (hf : f ∈ d.functionsOf stage)
    (hr : Known.isReserved name = true) :
    d.printed.functionName? f = some name ↔ d.desugared.functionName? f = some name := by
  obtain ⟨i, hi, hip, hid⟩ := exists_standing_function hd h hok hf
  rw [hip, hid]
  exact identName?_printed_iff_of_isReserved hd h hok hi.lt hr (Known.not_isMarked_of_isReserved hr)

theorem functionName?_ne_helper (hf : f ∈ d.functionsOf stage) {s : Known.Snippet}
    (hs : s ∈ d.helpersOf stage) : d.printed.functionName? f ≠ some s.name := by
  rw [ne_eq, functionName?_eq_reserved_iff hd h hok hf (isReserved_helper hs).1]
  intro hname
  have hmarks : ((d.itemsOf stage).map (Item.mark? d.desugared)).Nodup :=
    List.pairwise_map.mpr (marks_reachable d.desugared (d.roots stage)).1
  refine nomatch List.inj_on_of_nodup_map hmarks (Item.mem_filterMap_function?.mp hf)
    (mem_helpersOf.mp hs) ?_
  rw [Item.mark?, hname]
  rfl

/-- **An identifier is printed unlike an input** exactly if it does not come to that by a flat name
or by losing a mark. -/
theorem Standing.ne_input_iff (hi : d.Standing i) (hδ : δ ∈ d.header stage) :
    d.printed.identName? i ≠ some δ.name ↔
      (∀ ε ∈ d.inputs, d.desugared.identName? i = some ε.name →
        finalName d.lowered d.inputs ε.name ≠ δ.name) ∧
      (δ.name = δ.bucket.flatName δ.field → δ.name ∉ taken d.lowered d.inputs →
        d.desugared.identName? i ≠ some (localMark ++ δ.name)) := by
  cases hname : d.desugared.identName? i with
  | none =>
    have hnone := hi.isSome_identName? hd h hok
    rw [hname, Option.isSome_none, Option.isSome_eq_false_iff, Option.isNone_iff_eq_none] at hnone
    simp [hnone]
  | some name =>
    by_cases hflat : ∃ ε ∈ d.inputs, ε.name = name
    · obtain ⟨ε, hε, rfl⟩ := hflat
      rw [hi.identName?_printed hd h hok hname, ne_eq, Option.some_inj]
      refine ⟨fun hne => ⟨fun _ _ he => Option.some.inj he ▸ hne, fun _ _ he => ?_⟩,
        fun hne => hne.1 ε hε rfl⟩
      have hafter := Bucket.after?_localMark_flatName ε.bucket ε.field
      rw [← inputs_name hε, Option.some.inj he, after?_append] at hafter
      cases hafter
    · have hne : ∀ ε ∈ d.inputs, ε.name ≠ name := fun ε hε he => hflat ⟨ε, hε, he⟩
      rw [ne_eq, hi.declared_iff hd h hok hname hne hδ]
      constructor
      · refine fun hnot => ⟨fun ε hε he => absurd (Option.some.inj he).symm (hne ε hε), ?_⟩
        exact fun hflat htaken he => hnot ⟨hflat, htaken, Option.some.inj he⟩
      · rintro ⟨-, hmarks⟩ ⟨hflat, htaken, he⟩
        exact hmarks hflat htaken (congrArg some he)

theorem identName?_variable_ne_input (hv : v ∈ d.variablesOf stage) {ε : FieldDecl}
    (hε : ε ∈ d.inputs) : d.desugared.identName? v ≠ some ε.name := by
  intro hname
  have hvar := (isVariable_of_printed hd h hok (standing_variable hd h hok hv).2).1
  obtain ⟨bare, hbare⟩ := exists_identName?_variable hd h hvar hname
  have hafter := Bucket.after?_localMark_flatName ε.bucket ε.field
  rw [← inputs_name hε, hbare, after?_append] at hafter
  cases hafter

omit hd h hok in
theorem isReserved_of_mem (hname : name ∈ (d.helpersOf stage).map Known.Snippet.name ++ ["main"]) :
    Known.isReserved name = true := by
  rcases List.mem_append.mp hname with hhelper | hmain
  · obtain ⟨s, hs, rfl⟩ := List.mem_map.mp hhelper
    exact (isReserved_helper hs).1
  · rw [List.mem_singleton.mp hmain]
    exact Known.isReserved_main

omit hd h hok in
theorem nodup_reserved : ((d.helpersOf stage).map Known.Snippet.name ++ ["main"]).Nodup := by
  refine List.nodup_append.mpr ⟨nodup_helpers, List.nodup_singleton _, ?_⟩
  rw [List.forall_mem_map]
  intro s hs name hname
  rw [List.mem_singleton.mp hname]
  exact (isReserved_helper hs).2

theorem functions_ne_reserved_iff :
    (∀ a ∈ (d.functionsOf stage).filterMap d.printed.functionName?,
      ∀ b ∈ (d.helpersOf stage).map Known.Snippet.name ++ ["main"], a ≠ b) ↔
    ∀ f ∈ d.functionsOf stage, d.desugared.functionName? f ≠ some "main" := by
  rw [List.forall_mem_filterMap]
  refine forall₂_congr fun f hf => ?_
  rw [ne_eq, ← functionName?_eq_reserved_iff hd h hok hf Known.isReserved_main]
  constructor
  · exact fun hne he => hne _ he "main" (List.mem_append_right _ List.mem_cons_self) rfl
  · rintro hne _ he b hb rfl
    rcases List.mem_append.mp hb with hhelper | hmain
    · obtain ⟨s, hs, rfl⟩ := List.mem_map.mp hhelper
      exact functionName?_ne_helper hd h hok hf hs he
    · rw [List.mem_singleton.mp hmain] at he
      exact hne he

theorem functions_ne_variables_iff :
    (∀ a ∈ (d.functionsOf stage).filterMap d.printed.functionName?,
      ∀ b ∈ (d.variablesOf stage).filterMap d.printed.identName?, a ≠ b) ↔
    ∀ f ∈ d.functionsOf stage, ∀ v ∈ d.variablesOf stage, ∀ name,
      d.desugared.functionName? f = some name → d.desugared.identName? v ≠ some name := by
  simp only [List.forall_mem_filterMap]
  refine forall₂_congr fun f hf => ?_
  obtain ⟨i, hi, hip, hid⟩ := exists_standing_function hd h hok hf
  rw [hip, hid]
  have hsome := hi.isSome_identName? hd h hok
  have hsame : ∀ v ∈ d.variablesOf stage, d.printed.identName? i = d.printed.identName? v ↔
      d.desugared.identName? i = d.desugared.identName? v := fun v hv =>
    hi.same_iff hd h hok (standing_variable hd h hok hv).1
  constructor
  · intro hne v hv name hname hvname
    obtain ⟨a, ha⟩ := Option.isSome_iff_exists.mp (hsome.trans (congrArg Option.isSome hname))
    exact hne a ha v hv a (((hsame v hv).mpr (hname.trans hvname.symm)).symm.trans ha) rfl
  · rintro hne a ha v hv _ hva rfl
    obtain ⟨name, hname⟩ := Option.isSome_iff_exists.mp
      (hsome.symm.trans (congrArg Option.isSome ha))
    exact hne v hv name hname (((hsame v hv).mp (ha.trans hva.symm)).symm.trans hname)

theorem inputs_ne_functions_iff :
    (∀ a ∈ (d.header stage).map FieldDecl.name,
      ∀ b ∈ (d.functionsOf stage).filterMap d.printed.functionName?, a ≠ b) ↔
    ∀ δ ∈ d.header stage, ∀ f ∈ d.functionsOf stage,
      (∀ ε ∈ d.inputs, d.desugared.functionName? f = some ε.name →
        finalName d.lowered d.inputs ε.name ≠ δ.name) ∧
      (δ.name = δ.bucket.flatName δ.field → δ.name ∉ taken d.lowered d.inputs →
        d.desugared.functionName? f ≠ some (localMark ++ δ.name)) := by
  rw [List.forall_mem_map]
  refine forall₂_congr fun δ hδ => ?_
  rw [List.forall_mem_filterMap]
  refine forall₂_congr fun f hf => ?_
  obtain ⟨i, hi, hip, hid⟩ := exists_standing_function hd h hok hf
  rw [hip, hid, ← hi.ne_input_iff hd h hok hδ]
  exact ⟨fun hne he => hne _ he rfl, fun hne _ he heq => hne (heq ▸ he)⟩

theorem inputs_ne_variables_iff :
    (∀ a ∈ (d.header stage).map FieldDecl.name,
      ∀ b ∈ (d.variablesOf stage).filterMap d.printed.identName?, a ≠ b) ↔
    ∀ δ ∈ d.header stage, δ.name = δ.bucket.flatName δ.field →
      δ.name ∉ taken d.lowered d.inputs → ∀ v ∈ d.variablesOf stage,
        d.desugared.identName? v ≠ some (localMark ++ δ.name) := by
  rw [List.forall_mem_map]
  refine forall₂_congr fun δ hδ => ?_
  rw [List.forall_mem_filterMap]
  have hone : ∀ v ∈ d.variablesOf stage, d.printed.identName? v ≠ some δ.name ↔
      (δ.name = δ.bucket.flatName δ.field → δ.name ∉ taken d.lowered d.inputs →
        d.desugared.identName? v ≠ some (localMark ++ δ.name)) := fun v hv => by
    rw [(standing_variable hd h hok hv).1.ne_input_iff hd h hok hδ, and_iff_right]
    exact fun ε hε hname => absurd hname (identName?_variable_ne_input hd h hok hv hε)
  constructor
  · exact fun hne hflat htaken v hv => (hone v hv).mp (fun he => hne v hv _ he rfl) hflat htaken
  · exact fun hne v hv _ he heq =>
      (hone v hv).mpr (fun hflat htaken => hne hflat htaken v hv) (heq ▸ he)

end Trees

end Definition

open Definition

/-- **The names that a stage defines are distinct exactly if it is separate.** The program of a
stage is made of the declarations, items and `main` that these names are taken from. -/
theorem definitions_nodup_iff {g : Graph} (h : g.IsTree) {d : Definition} (hd : ofGraph g = .ok d)
    {o : Options} {s : Shader} (hs : (d.compile o).1 = .ok s) (stage : Stage) :
    s.text stage = Glsl.programText d.printed d.entries o stage d.named.2 (d.itemsOf stage) ∧
      ((d.definitions stage).Nodup ↔ d.Separate stage) := by
  refine ⟨text_of_compile hs stage, ?_⟩
  obtain ⟨-, hok⟩ := d.failure?_of_compile hs
  have inputsFree : ∀ a ∈ (d.header stage).map FieldDecl.name,
      ∀ b ∈ (d.helpersOf stage).map Known.Snippet.name ++ ["main"], a ≠ b := by
    rw [List.forall_mem_map]
    intro δ hδ b hb he
    exact Bool.false_ne_true ((isReserved_header hδ).symm.trans (he ▸ isReserved_of_mem hb))
  have variablesFree : ∀ a ∈ (d.variablesOf stage).filterMap d.printed.identName?,
      ∀ b ∈ (d.helpersOf stage).map Known.Snippet.name ++ ["main"], a ≠ b := by
    rw [List.forall_mem_filterMap]
    intro v hv a ha b hb he
    have hfree := isReserved_variable hd h hok (standing_variable hd h hok hv).2 ha
    exact Bool.false_ne_true (hfree.symm.trans (he ▸ isReserved_of_mem hb))
  unfold definitions
  rw [List.nodup_append, List.nodup_append, List.nodup_append]
  constructor
  · rintro ⟨header, ⟨-, ⟨distinct, -, -⟩, functions⟩, inputs⟩
    have functionsV := fun a ha b hb => functions a ha b (List.mem_append_left _ hb)
    have functionsR := fun a ha b hb => functions a ha b (List.mem_append_right _ hb)
    have inputsF := fun a ha b hb => inputs a ha b (List.mem_append_left _ hb)
    have inputsV := fun a ha b hb =>
      inputs a ha b (List.mem_append_right _ (List.mem_append_left _ hb))
    rw [inputs_ne_functions_iff hd h hok] at inputsF
    rw [inputs_ne_variables_iff hd h hok] at inputsV
    exact {
      main := (functions_ne_reserved_iff hd h hok).mp functionsR
      distinct := (nodup_variables_iff hd h hok).mp distinct
      functions := (functions_ne_variables_iff hd h hok).mp functionsV
      stems := nodup_header_iff.mp header
      inputs := fun f hf ε hε hname δ hδ => (inputsF δ hδ f hf).1 ε hε hname
      marks := fun δ hδ hflat htaken =>
        ⟨fun f hf => (inputsF δ hδ f hf).2 hflat htaken, inputsV δ hδ hflat htaken⟩ }
  · intro hsep
    have inputsF := (inputs_ne_functions_iff hd h hok).mpr fun δ hδ f hf =>
      ⟨fun ε hε hname => hsep.inputs f hf ε hε hname δ hδ,
        fun hflat htaken => (hsep.marks δ hδ hflat htaken).1 f hf⟩
    have inputsV := (inputs_ne_variables_iff hd h hok).mpr fun δ hδ hflat htaken =>
      (hsep.marks δ hδ hflat htaken).2
    have functionsV := (functions_ne_variables_iff hd h hok).mpr hsep.functions
    have functionsR := (functions_ne_reserved_iff hd h hok).mpr hsep.main
    refine ⟨nodup_header_iff.mpr hsep.stems, ⟨nodup_functions hd h hok,
      ⟨(nodup_variables_iff hd h hok).mpr hsep.distinct, nodup_reserved, variablesFree⟩,
      fun a ha => ?_⟩, fun a ha => ?_⟩
    · exact List.forall_mem_append.mpr ⟨functionsV a ha, functionsR a ha⟩
    · exact List.forall_mem_append.mpr ⟨inputsF a ha,
        List.forall_mem_append.mpr ⟨inputsV a ha, inputsFree a ha⟩⟩

/-- The program `function main() { return 1; } var scale = 2;
function VertexPosition() { return [main(), scale, uniforms.u, 1]; }
function FragmentColor() { return [scale, uniforms.u, 0, 1]; }`, with its entry points. -/
def secondMain : Definition where
  graph := Build.finish do
    let _ ← Build.function "main" [] [← Build.ret (some (← Build.num "1"))]
    let _ ← Build.statement (← Build.var "scale" (some (← Build.num "2")))
    let number ← Build.call (← Build.ident "main") []
    let input ← Build.field (← Build.ident "uniforms") "u"
    let position ← Build.array [number, ← Build.ident "scale", input, ← Build.num "1"]
    let _ ← Build.function "VertexPosition" [] [← Build.ret (some position)]
    let input ← Build.field (← Build.ident "uniforms") "u"
    let color ← Build.array [← Build.ident "scale", input, ← Build.num "0", ← Build.num "1"]
    let _ ← Build.function "FragmentColor" [] [← Build.ret (some color)]
  entries := { vertexPosition := 20, fragmentColor := 31, pointSize := none }

-- one evaluation of the passes for all that is said about the program below
theorem passes_secondMain : secondMain.graph.IsTree ∧
    EntryPoints.locate secondMain.graph = .ok secondMain.entries ∧ secondMain.failure? = none ∧
    secondMain.definitions .vertex = ["u", "main", "VertexPosition", "scale", "main"] ∧
    4 ∈ secondMain.functionsOf .vertex ∧ secondMain.desugared.functionName? 4 = some "main" ∧
    secondMain.functionsOf .fragment = [31] ∧
    secondMain.desugared.functionName? 31 = some "FragmentColor" ∧
    secondMain.variablesOf .fragment = [6] ∧
    secondMain.desugared.identName? 6 = some "_local_scale" ∧
    secondMain.inputs.map FieldDecl.name = ["uniforms_u"] ∧
    ∀ δ ∈ secondMain.header .fragment, δ.name ≠ δ.bucket.flatName δ.field := by
  decide +kernel

theorem separate_secondMain : secondMain.Separate .fragment := by
  obtain ⟨-, -, -, -, -, -, hf, hfname, hv, hvname, hinputs, hbare⟩ := passes_secondMain
  have hfunction : ∀ f ∈ secondMain.functionsOf .fragment,
      secondMain.desugared.functionName? f = some "FragmentColor" := by
    rw [hf]
    simpa using hfname
  have hvariable : ∀ v ∈ secondMain.variablesOf .fragment,
      secondMain.desugared.identName? v = some "_local_scale" := by
    rw [hv]
    simpa using hvname
  refine ⟨fun f hmem => ?_, ?_, fun f hmem v hmemv name hname => ?_, fun _ _ δ hδ _ hflat => ?_,
    fun f hmem ε hε hname => ?_, fun δ hδ hflat => absurd hflat (hbare δ hδ)⟩
  · rw [hfunction f hmem]
    decide
  · rw [hv, List.filterMap_cons, hvname]
    exact List.nodup_singleton _
  · rw [hfunction f hmem] at hname
    rw [hvariable v hmemv, ← hname]
    decide
  · exact absurd hflat (hbare δ hδ)
  · have hname' : ε.name ∈ secondMain.inputs.map FieldDecl.name := List.mem_map_of_mem hε
    rw [hinputs, List.mem_singleton] at hname'
    rw [hfunction f hmem, hname'] at hname
    exact absurd hname (by decide)

/-- The names are distinct in one stage and not in the other. -/
theorem definitions_nodup_iff_secondMain :
    secondMain.graph.IsTree ∧ ofGraph secondMain.graph = .ok secondMain ∧
    (∃ s, (secondMain.compile {}).1 = .ok s) ∧ (secondMain.definitions .fragment).Nodup ∧
    ¬ (secondMain.definitions .vertex).Nodup := by
  obtain ⟨h, he, hf, -, hmem, hname, -⟩ := passes_secondMain
  have hd := ofGraph_of_locate he
  have hs := secondMain.compile_of_failure? (o := {}) hf
  refine ⟨h, hd, ⟨_, hs⟩, ?_, fun hnodup => ?_⟩
  · exact (definitions_nodup_iff h hd hs .fragment).2.mpr separate_secondMain
  · exact ((definitions_nodup_iff h hd hs .vertex).2.mp hnodup).main 4 hmem hname

/-- **A program with two functions `main`.** -/
theorem definitions_secondMain :
    secondMain.graph.IsTree ∧ ofGraph secondMain.graph = .ok secondMain ∧
    (∃ s, (secondMain.compile {}).1 = .ok s) ∧
    secondMain.definitions .vertex = ["u", "main", "VertexPosition", "scale", "main"] ∧
    ¬ (secondMain.definitions .vertex).Nodup := by
  obtain ⟨h, he, hf, hdefs, -⟩ := passes_secondMain
  refine ⟨h, ofGraph_of_locate he, ⟨_, secondMain.compile_of_failure? (o := {}) hf⟩, hdefs, ?_⟩
  rw [hdefs]
  decide

end ShaderScript
