import ShaderScript.Builder
import ShaderScript.Proofs.Compile.Passes
import ShaderScript.Proofs.Flatten.Marks
import ShaderScript.Proofs.Flatten.Reads

/-!
# What is left of the object model

Flattening removes every access to the object model that has a name as its property in the source,
and notes the fields of the buckets that are read. Parameters of entry points do not count, since
they are dropped first.

* `BucketFields.get_foldl_insert`: noted fields stand in order of first use.
* `Graph.outsideParams`: the program without the parameters of its entry points.
* `Graph.mem_outsideParams_of_mem_bare`, `Graph.mem_bare_or_of_mem_outsideParams`: that is what is
  left when the buckets are flattened.
* `Graph.get_fields_flatten`: the fields that are noted.
* `Graph.kind_marked_cases`: what marks do to a node.
* `Graph.ObjectFree`: what flattening leaves of the object model.
* **`flatten_objectFree`**: an access is only left where its property was an access itself.
-/

namespace ShaderScript

/-! ## Noting fields -/

namespace BucketFields

variable {fs : BucketFields} {b b' : Bucket} {f : String}

theorem get_insert : (fs.insert b f).get b' =
    if b = b' ∧ f ∉ fs.get b' then fs.get b' ++ [f] else fs.get b' := by
  have hmem : f ∈ fs.get b ↔ (b, f) ∈ fs.used := by simp [get]
  unfold insert
  split_ifs with hused hnew hnew
  · obtain ⟨rfl, hf⟩ := hnew
    exact absurd (hmem.mpr (List.contains_iff_mem.mp hused)) hf
  · rfl
  · obtain ⟨rfl, -⟩ := hnew
    simp [get]
  · have hb : b ≠ b' := by
      rintro rfl
      exact hnew ⟨rfl, fun hf => hused (List.contains_iff_mem.mpr (hmem.mp hf))⟩
    simp [get, hb]

/-- The field of an input if it belongs to a bucket. -/
def inBucket? (b : Bucket) (p : Bucket × String) : Option String :=
  if p.1 = b then some p.2 else none

/-- **Noted fields stand in order of first use**, each once. -/
theorem get_foldl_insert (ps : List (Bucket × String)) (b : Bucket) :
    (ps.foldl (fun fs p => fs.insert p.1 p.2) ({} : BucketFields)).get b =
      (ps.filterMap (inBucket? b)).eraseDups := by
  induction ps using List.reverseRecOn with
  | nil => rfl
  | append_singleton ps p ih =>
    rw [List.foldl_append, List.foldl_cons, List.foldl_nil, get_insert, ih, List.filterMap_append,
      List.eraseDups_append]
    by_cases hb : p.1 = b
    · have hp : [p].filterMap (inBucket? b) = [p.2] := by simp [inBucket?, hb]
      rw [hp]
      by_cases hmem : p.2 ∈ ps.filterMap (inBucket? b)
      · simp [List.mem_eraseDups, hmem, List.removeAll]
      · simp [List.mem_eraseDups, hb, hmem, List.removeAll, List.eraseDups_cons]
    · have hp : [p].filterMap (inBucket? b) = [] := by simp [inBucket?, hb]
      simp [hp, hb]

end BucketFields

namespace Graph

variable {g : Graph} {e : EntryPoints} {i j : Id} {b : Bucket} {f : String}

theorem get_flattenBuckets (h : g.IsTree) (b : Bucket) : g.flattenBuckets.2.get b =
    (g.live.filterMap fun i => (g.bucketAccess? i).bind (BucketFields.inBucket? b)).eraseDups := by
  unfold flattenBuckets
  rw [foldl_flattenBucket h.downward_live fun i hi => h.lt_size hi,
    BucketFields.get_foldl_insert, List.filterMap_filterMap]

/-! ## Parameters of entry points -/

/-- The parameters of the entry points. -/
def entryParams (g : Graph) (e : EntryPoints) : List Id :=
  e.toList.flatMap fun p =>
    match g.kind p.2 with
    | .function _ params _ => params
    | _ => []

/-- The nodes of the program outside the parameters of its entry points, in pre-order. -/
def outsideParams (g : Graph) (e : EntryPoints) : List Id :=
  g.live.filter fun i => ∀ p ∈ g.entryParams e, i ∉ g.descendants p

theorem mem_entryParams {p : Id} : p ∈ g.entryParams e ↔ ∃ f, e.contains f = true ∧
    ∃ name params body, g.kind f = .function name params body ∧ p ∈ params := by
  simp only [entryParams, List.mem_flatMap, EntryPoints.contains, List.any_eq_true, beq_iff_eq]
  constructor
  · rintro ⟨q, hq, hp⟩
    cases hk : g.kind q.2 with
    | function name params body =>
      rw [hk] at hp
      exact ⟨q.2, ⟨q, hq, rfl⟩, name, params, body, hk, hp⟩
    | _ =>
      rw [hk] at hp
      exact absurd hp List.not_mem_nil
  · rintro ⟨f, ⟨q, hq, rfl⟩, name, params, body, hk, hp⟩
    refine ⟨q, hq, ?_⟩
    rw [hk]
    exact hp

theorem mem_outsideParams :
    i ∈ g.outsideParams e ↔ i ∈ g.live ∧ ∀ p ∈ g.entryParams e, i ∉ g.descendants p := by
  simp [outsideParams]

/-! ## What is left of the program -/

section Trees

variable (h : g.IsTree) (hlive : ∀ f, e.contains f = true → f ∈ g.live)

include h hlive

theorem live_of_mem_entryParams {p : Id} (hp : p ∈ g.entryParams e) : p ∈ g.live := by
  rw [mem_entryParams] at hp
  obtain ⟨f, hf, name, params, body, hk, hparam⟩ := hp
  refine h.child_live (hlive f hf) ?_
  rw [children, hk]
  exact List.mem_cons_of_mem _ (List.mem_append_left _ hparam)

theorem mem_outsideParams_of_mem_bare (hi : i ∈ (g.bare e).live) : i ∈ g.outsideParams e := by
  have hx := changed_bare g e
  rw [mem_outsideParams]
  refine ⟨hx.live_of_live Kind.Flattened.sublist hi, fun p hp hip => ?_⟩
  have hpl := live_of_mem_entryParams h hlive hp
  rw [mem_entryParams] at hp
  obtain ⟨f, hf, name, params, body, hk, hparam⟩ := hp
  have hchild : p ∈ g.children f := by
    rw [children, hk]
    exact List.mem_cons_of_mem _ (List.mem_append_left _ hparam)
  obtain ⟨d, hd⟩ := (h.mem_descendants_iff hpl).mp hip
  have hpx := hx.live_of_below Kind.Flattened.sublist h hpl hd hi
  have hpar := h.parent_child f (hlive f hf) p hchild
  rw [← hx.parent] at hpar
  -- the entry point has lost its parameter, and no node has two places
  have hleft := ((isTree_bare h e).parent_live hpx hpar).2
  have hnodup := h.children_nodup f (hlive f hf)
  rw [children, kind_bare_function h e hk, if_pos hf] at hleft
  rw [children, hk] at hnodup
  simp only [Kind.children, List.nil_append, List.mem_cons, List.not_mem_nil, or_false] at hleft
  simp only [Kind.children, List.nodup_cons, List.mem_append, List.mem_singleton, not_or,
    List.nodup_append] at hnodup
  rcases hleft with rfl | rfl
  · exact hnodup.1.1 hparam
  · exact hnodup.2.2.2 p hparam p rfl rfl

/-- What lies outside the parameters of entry points is left, the two parts of an access through the
receiver apart. -/
theorem mem_bare_or_of_mem_outsideParams (hi : i ∈ g.outsideParams e) :
    i ∈ (g.bare e).live ∨ ∃ q n, g.receiverName? q = some n ∧ i ∈ g.children q := by
  rw [mem_outsideParams] at hi
  obtain ⟨hil, hout⟩ := hi
  obtain ⟨d, hd⟩ := h.mem_live_iff.mp hil
  clear hil
  induction hd with
  | refl => exact .inl ((changed_bare g e).root ▸ (isTree_bare h e).root_live)
  | @step d q i hq hqi ih =>
    have hql := h.mem_live_iff.mpr ⟨d, hq⟩
    have hqout : ∀ p ∈ g.entryParams e, q ∉ g.descendants p := fun p hp hqp => by
      have hpl := live_of_mem_entryParams h hlive hp
      obtain ⟨c, hc⟩ := (h.mem_descendants_iff hpl).mp hqp
      exact hout p hp ((h.mem_descendants_iff hpl).mpr ⟨c + 1, .step hc hqi⟩)
    rcases ih hqout with hqx | ⟨r, n, hr, hqr⟩
    · cases hrec : g.receiverName? q with
      | some n => exact .inr ⟨q, n, hrec, hqi⟩
      | none =>
        refine .inl ((isTree_bare h e).child_live hqx ?_)
        have hk := kind_bare h e hrec
        split_ifs at hk with hq
        · rw [children, hk]
          rw [children] at hqi
          generalize hkq : g.kind q = k at hqi
          cases k with
          | function name params body =>
            have hparam : i ∉ params := fun hip => by
              have hmem : i ∈ g.entryParams e := by
                rw [mem_entryParams]
                exact ⟨q, hq, name, params, body, hkq, hip⟩
              exact hout i hmem ((h.mem_descendants_iff (live_of_mem_entryParams h hlive hmem)).mpr
                ⟨0, .refl⟩)
            simpa [Kind.children, Kind.withoutParams, hparam] using hqi
          | _ => exact hqi
        · rw [children, hk]
          exact hqi
    · -- the parts of an access through the receiver have no parts
      obtain ⟨o, p, hk, ho, hp⟩ := receiverName?_eq_some.mp hr
      rw [children, hk] at hqr
      rw [children] at hqi
      simp only [Kind.children, List.mem_cons, List.not_mem_nil, or_false] at hqr
      rcases hqr with rfl | rfl
      · rw [ho] at hqi
        cases hqi
      · rw [hp] at hqi
        cases hqi

theorem get_fields_flatten (b : Bucket) : (flatten g e).fields.get b =
    ((g.outsideParams e).filterMap (g.fieldOf? b)).eraseDups := by
  have hx := changed_bare g e
  have hsub : ∀ {i}, i ∈ (g.bare e).live → i ∈ g.live := hx.live_of_live Kind.Flattened.sublist
  have hfields : (flatten g e).fields = (g.bare e).flattenBuckets.2 := rfl
  rw [hfields, get_flattenBuckets (isTree_bare h e)]
  refine congrArg List.eraseDups ?_
  have hread : ∀ i ∈ (g.bare e).live,
      ((g.bare e).bucketAccess? i).bind (BucketFields.inBucket? b) = g.fieldOf? b i := by
    intro i hi
    refine Option.ext fun f => ?_
    rw [← bucketAccess?_bare h e (hsub hi), Option.bind_eq_some_iff]
    constructor
    · rintro ⟨⟨b', f'⟩, ha, hf⟩
      unfold BucketFields.inBucket? at hf
      split_ifs at hf with hb
      cases hf
      rw [ha, ← hb]
    · intro ha
      exact ⟨(b, f), ha, if_pos rfl⟩
  rw [List.filterMap_congr hread, hx.live_eq_filter Kind.Flattened.sublist h, outsideParams,
    List.filterMap_filter, List.filterMap_filter]
  refine List.filterMap_congr fun i hi => ?_
  by_cases hix : i ∈ (g.bare e).live
  · have hout := (mem_outsideParams.mp (mem_outsideParams_of_mem_bare h hlive hix)).2
    rw [if_pos (decide_eq_true hix), if_pos (decide_eq_true hout)]
  · rw [if_neg fun hc => hix (of_decide_eq_true hc)]
    split_ifs with hout
    · -- only the receiver and the name after it are gone, and these read nothing
      have hmem := mem_outsideParams.mpr ⟨hi, of_decide_eq_true hout⟩
      rcases mem_bare_or_of_mem_outsideParams h hlive hmem with hc | ⟨q, n, hq, hqi⟩
      · exact absurd hc hix
      · obtain ⟨o, p, hk, ho, hp⟩ := receiverName?_eq_some.mp hq
        rw [children, hk] at hqi
        simp only [Kind.children, List.mem_cons, List.not_mem_nil, or_false] at hqi
        unfold fieldOf?
        rcases hqi with rfl | rfl
        · rw [ho]
        · rw [hp]
    · rfl

end Trees

/-! ## Marks -/

/-- Marks change names only: a variable gets the mark, and what belongs with an `out` parameter gets
the other name. -/
theorem kind_marked_cases (g : Graph) (i : Id) : g.marked.kind i = g.kind i ∨
    ∃ name, g.kind i = .ident name ∧ (g.marked.kind i = .ident (localMark ++ name) ∨
      name = "out" ∧ g.marked.kind i = .ident outParamName) := by
  have hm := marked_marked g
  have hk := hm.changed.kind i
  generalize hold : g.kind i = k, hnew : g.marked.kind i = k' at hk
  cases hk with
  | refl => exact .inl rfl
  | ident old new =>
    have hname : g.identName? i = some old := identName?_eq_some.mpr hold
    have hmarked : g.marked.identName? i = some new := identName?_eq_some.mpr hnew
    rcases hm.name i with he | ⟨ho, he⟩ | ⟨v, key, -, -, hkey, he⟩ <;> rw [hmarked] at he
    · rw [hname] at he
      cases he
      exact .inl rfl
    · rw [hname] at ho
      cases ho
      cases he
      exact .inr ⟨_, rfl, .inr ⟨rfl, rfl⟩⟩
    · obtain ⟨-, hkname, -⟩ := key?_eq_some.mp hkey
      rw [hname] at hkname
      cases hkname
      cases he
      exact .inr ⟨_, rfl, .inl rfl⟩

theorem kind_of_marked_bucket (hb : g.marked.kind i = .ident b.name) :
    g.kind i = .ident b.name := by
  rcases kind_marked_cases g i with he | ⟨name, -, he | ⟨-, he⟩⟩
  · rw [← he, hb]
  · rw [hb] at he
    have hname := congrArg String.toList (Kind.ident.inj he)
    rw [String.toList_append] at hname
    have hno : ¬ localMark.toList <+: b.name.toList := by cases b <;> decide
    exact absurd (hname ▸ List.prefix_append _ _) hno
  · rw [hb] at he
    have hno : b.name ≠ outParamName := by cases b <;> decide
    exact absurd (Kind.ident.inj he) hno

/-! ## The object model -/

/-- The node is the receiver or has the name of a bucket. -/
def IsObject (g : Graph) (i : Id) : Prop :=
  g.kind i = .this ∨ ∃ b : Bucket, g.kind i = .ident b.name

/-- What flattening leaves of the object model. -/
structure ObjectFree (g : Graph) (e : EntryPoints) (r : Flattened) : Prop where
  /-- Every access to the object model is an identifier. -/
  accesses : ∀ i ∈ r.graph.live, g.readsObject i = true → (r.graph.identName? i).isSome
  /-- An object of the model is left with a name as its property exactly where the property was an
  access to the object model itself, so that the source has no name there. -/
  objects : ∀ i ∈ r.graph.live, ∀ object property, r.graph.kind i = .field object property →
    r.graph.IsObject object →
      ((r.graph.identName? property).isSome ↔ g.readsObject property = true)
  /-- The fields that are noted are those that the program reads outside the parameters of its entry
  points, in the order in which they first occur. -/
  fields : ∀ b, r.fields.get b = ((g.outsideParams e).filterMap (g.fieldOf? b)).eraseDups
  /-- The entry points have no parameters. -/
  entries : ∀ p ∈ e.toList, ∃ name params body, g.kind p.2 = .function name params body ∧
    r.graph.kind p.2 = .function name [] body
  /-- All other nodes are what they were, up to the names that marks give. -/
  kept : ∀ i, g.readsObject i = false → e.contains i = false → r.graph.kind i = g.kind i ∨
    ∃ name, g.kind i = .ident name ∧ (r.graph.kind i = .ident (localMark ++ name) ∨
      name = "out" ∧ r.graph.kind i = .ident outParamName)

end Graph

open Graph

variable {g : Graph} {e : EntryPoints}

theorem EntryPoints.mem_functions_of_contains (he : locate g = .ok e) {f : Id}
    (hf : e.contains f = true) : f ∈ g.functions := by
  obtain ⟨p, hp, hpf⟩ := List.any_eq_true.mp hf
  obtain rfl := eq_of_beq hpf
  refine locate_functions he p.2 ?_
  simp only [toList, List.mem_append, List.mem_cons, List.not_mem_nil, or_false, List.mem_map,
    Option.mem_toList] at hp
  simp only [vertexStage, fragmentStage, List.mem_append, List.mem_cons, Option.mem_toList,
    List.not_mem_nil, or_false]
  rcases hp with (rfl | rfl) | ⟨f, hsize, rfl⟩
  · exact .inl (.inl rfl)
  · exact .inr rfl
  · exact .inl (.inr hsize)

/-- **Flattening removes the object model.** An access is left only where its property was an access
itself, and then it is left as an access to a name. -/
theorem flatten_objectFree (h : g.IsTree) (he : EntryPoints.locate g = .ok e) :
    g.ObjectFree e (flatten g e) := by
  have hgraph := flatten_graph g e
  have hm := marked_marked (g.flat e)
  have hfun : ∀ f, e.contains f = true → f ∈ g.functions := fun _ =>
    EntryPoints.mem_functions_of_contains he
  have hlive : ∀ f, e.contains f = true → f ∈ g.live := fun f hf =>
    h.body_live (mem_functions.mp (hfun f hf)).1
  have hleft : ∀ {i}, i ∈ (flatten g e).graph.live → i ∈ (g.flat e).live := fun {i} hi => by
    rw [hgraph, hm.changed.live_eq] at hi
    exact hi
  have hname : ∀ i, ((flatten g e).graph.identName? i).isSome = ((g.flat e).identName? i).isSome :=
    fun i => by rw [hgraph, hm.changed.isSome_identName?]
  refine ⟨fun i hi hr => ?_, fun i hi o p hk ho => ?_, get_fields_flatten h hlive, fun p hp => ?_,
    fun i hr hc => ?_⟩
  · rw [hname]
    exact (isSome_identName?_flat h (hleft hi)).mpr (.inr hr)
  · rw [hgraph] at hk ho
    have hi := hleft hi
    have hkf := (hm.changed.kind_eq_iff i rfl).mp hk
    have hsource : g.kind i = .field o p := by
      have hflat := kind_flat g e i
      rw [hkf] at hflat
      generalize g.kind i = k at hflat
      cases hflat
      rfl
    have hno : g.readsObject i = false := by
      by_contra hr
      have hsome := (isSome_identName?_flat h hi).mpr (.inr (eq_true_of_ne_false hr))
      rw [identName?, hkf] at hsome
      cases hsome
    have child : ∀ {c}, c ∈ [o, p] → c ∈ (g.flat e).live := fun hc =>
      (isTree_flat h e).child_live hi (by rwa [children, hkf])
    rw [hname, isSome_identName?_flat h (child (by simp)), or_iff_right]
    -- with a name as its property, the node would have been an access itself
    intro hp
    obtain ⟨n, hp⟩ := Option.isSome_iff_exists.mp hp
    refine Bool.false_ne_true (hno.symm.trans (readsObject_iff.mpr ?_))
    rcases ho with ho | ⟨b, ho⟩
    · have hthis : g.kind o = .this := by
        have hflat := kind_flat g e o
        rw [(hm.changed.kind_eq_iff o rfl).mp ho] at hflat
        generalize g.kind o = k at hflat
        cases hflat
        rfl
      rw [receiverName?_eq_some.mpr ⟨o, p, hsource, hthis, identName?_eq_some.mp hp⟩]
      exact .inl rfl
    · have hob := bareName?_of_bucket h (child (by simp)) (kind_of_marked_bucket ho)
      have hpn : g.bareName? p = some n := by rw [bareName?, hp, Option.some_or]
      exact .inr ⟨b, n, fieldOf?_eq_some.mpr ⟨o, p, hsource, hob, hpn⟩⟩
  · have hc : e.contains p.2 = true := List.any_eq_true.mpr ⟨p, hp, beq_self_eq_true _⟩
    have hf := (mem_functions.mp (hfun p.2 hc)).2
    obtain ⟨name, params, body, hk⟩ :
        ∃ name params body, g.kind p.2 = .function name params body := by
      unfold isFunction at hf
      split at hf
      case h_1 name params body hk => exact ⟨name, params, body, hk⟩
      case h_2 => cases hf
    refine ⟨name, params, body, hk, ?_⟩
    have hno : ∀ o q, g.kind p.2 ≠ .field o q := by
      intro o q hfield
      rw [hk] at hfield
      cases hfield
    have hflat := kind_flat_eq h e (readsObject_of_kind hno)
    rw [if_pos hc, hk] at hflat
    rw [hgraph]
    exact (hm.changed.kind_eq_iff p.2 rfl).mpr hflat
  · have hflat := kind_flat_eq h e hr
    rw [if_neg (by rw [hc]; exact Bool.false_ne_true)] at hflat
    rw [hgraph, ← hflat]
    exact kind_marked_cases (g.flat e) i

/-- The program
`function VertexPosition(uniforms.lost) { var x = this.attributes.p; attributes.attributes.q;
varyings.(varyings.w); varyings.(this.t); attributes.p; }` and `function FragmentColor() {}`,
in which the parameter and two properties are accesses themselves. -/
def nestedAccesses : Graph := Build.finish do
  let name ← Build.ident "VertexPosition"
  let param ← Build.field (← Build.ident "uniforms") "lost"
  let receiver ← Build.field (← Build.node .this) "attributes"
  let var ← Build.var "x" (some (← Build.field receiver "p"))
  let twice ← Build.field (← Build.ident "attributes") "attributes"
  let chain ← Build.exprStmt (← Build.field twice "q")
  let outer ← Build.ident "varyings"
  let inner ← Build.field (← Build.ident "varyings") "w"
  let left ← Build.exprStmt (← Build.node (.field outer inner))
  let bucket ← Build.ident "varyings"
  let bare ← Build.field (← Build.node .this) "t"
  let read ← Build.exprStmt (← Build.node (.field bucket bare))
  let again ← Build.exprStmt (← Build.field (← Build.ident "attributes") "p")
  let body ← Build.block [var, chain, left, read, again]
  Build.statement (← Build.node (.function name [param] body))
  let _ ← Build.function "FragmentColor" [] []

/-- The dropped parameter is not noted, and one of the accesses is left. -/
theorem flatten_objectFree_nestedAccesses : ∃ e, nestedAccesses.IsTree ∧
    EntryPoints.locate nestedAccesses = .ok e ∧
    nestedAccesses.ObjectFree e (flatten nestedAccesses e) ∧
    (Bucket.all.map fun b => (flatten nestedAccesses e).fields.get b) =
      [["p", "attributes"], ["w", "t"], []] ∧
    (flatten nestedAccesses e).graph.live.filterMap (flatten nestedAccesses e).graph.dottedPath? =
      ["VertexPosition", "_local_x", "attributes_p", "attributes_attributes.q",
        "attributes_attributes", "q", "varyings.varyings_w", "varyings", "varyings_w",
        "varyings_t", "attributes_p", "FragmentColor"] := by
  have h : nestedAccesses.IsTree := by decide +kernel
  have he : EntryPoints.locate nestedAccesses = .ok ⟨35, 38, none⟩ := by decide +kernel
  exact ⟨_, h, he, flatten_objectFree h he, by decide +kernel, by decide +kernel⟩

/-- The program `function VertexPosition() { this.(this.x); }` and `function FragmentColor() {}`. -/
def nestedReceiver : Graph := Build.finish do
  let inner ← Build.field (← Build.node .this) "x"
  let outer ← Build.node (.field (← Build.node .this) inner)
  let _ ← Build.function "VertexPosition" [] [← Build.exprStmt outer]
  let _ ← Build.function "FragmentColor" [] []

/-- **An access through the receiver can be left**: its property has become a name, and flattening
does not come back to it. -/
theorem receiver_left_nestedReceiver : ∃ e, nestedReceiver.IsTree ∧
    EntryPoints.locate nestedReceiver = .ok e ∧
    ∃ i ∈ (flatten nestedReceiver e).graph.live, ∃ object property,
      (flatten nestedReceiver e).graph.kind i = .field object property ∧
      (flatten nestedReceiver e).graph.kind object = .this ∧
      (flatten nestedReceiver e).graph.kind property = .ident "x" := by
  have h : nestedReceiver.IsTree := by decide +kernel
  have he : EntryPoints.locate nestedReceiver = .ok ⟨8, 11, none⟩ := by decide +kernel
  exact ⟨_, h, he, 4, by decide +kernel, 3, 2, by decide +kernel, by decide +kernel,
    by decide +kernel⟩

end ShaderScript
