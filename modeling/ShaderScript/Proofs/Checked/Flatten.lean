import ShaderScript.Proofs.Checked.Scope
import ShaderScript.Proofs.Flatten.Marks

/-!
# Checked flattening

Flattening edits the nodes that it goes through, and it goes through nodes that were there before
the first edit. No edit gives a node a child that it did not have.

* `Checked.locate_eq`, `Checked.attachHints_ok`: entry points are found, and hints attached.
* `Checked.declarations_eq`: the inputs with their types.
* `Checked.stripReceivers_ok`, `Checked.dropEntryParams_ok`, `Checked.flattenBuckets_ok`,
  `Checked.markOutParams_ok`, `Checked.markLocals_ok`: the five parts of flattening.
* **`Checked.flatten_ok`**: the whole of it.
-/

namespace ShaderScript.Checked

/-! ## Entry points -/

section EntryPoints

variable (g : Graph)

/-- The entry points of a program, or one that is missing. -/
def locate : Checked (Except EntryPoint EntryPoints) := do
  match ← findFunction? g EntryPoint.vertexPosition.name with
  | none => return .error .vertexPosition
  | some vertexPosition =>
    match ← findFunction? g EntryPoint.fragmentColor.name with
    | none => return .error .fragmentColor
    | some fragmentColor =>
      let pointSize ← findFunction? g EntryPoint.pointSize.name
      return .ok { vertexPosition, fragmentColor, pointSize }

/-- Notes the expected type of an entry point on the name of its declaration. -/
def attachHint (p : EntryPoint × Id) : Checked Graph := do
  match ← kind g p.2 with
  | .function name _ _ => modify g name ({ · with hint := some p.1.hint })
  | _ => return g

/-- Notes the expected type of each entry point on the name of its declaration. -/
def attachHints (e : EntryPoints) : Checked Graph := e.toList.foldlM attachHint g

variable {g} {n : Nat}

theorem locate_eq (h : g.InRange) : locate g = .ok (EntryPoints.locate g) := by
  unfold locate EntryPoints.locate
  rw [findFunction?_eq h, ok_bind]
  cases g.findFunction? EntryPoint.vertexPosition.name with
  | none => rfl
  | some v =>
    dsimp only
    rw [findFunction?_eq h, ok_bind]
    cases g.findFunction? EntryPoint.fragmentColor.name with
    | none => rfl
    | some f =>
      dsimp only
      rw [findFunction?_eq h]
      rfl

theorem locate_lt (h : g.InRange) {e : EntryPoints} (he : EntryPoints.locate g = .ok e)
    {p : EntryPoint × Id} (hp : p ∈ e.toList) : p.2 < g.size := by
  unfold EntryPoints.locate at he
  split at he
  case h_1 => cases he
  case h_2 v hv =>
    split at he
    case h_1 => cases he
    case h_2 f hf =>
      cases he
      unfold EntryPoints.toList at hp
      simp only [List.mem_append, List.mem_cons, List.not_mem_nil, or_false, List.mem_map,
        Option.mem_toList] at hp
      rcases hp with (rfl | rfl) | ⟨s, hs, rfl⟩
      · exact Graph.findFunction?_lt h hv
      · exact Graph.findFunction?_lt h hf
      · exact Graph.findFunction?_lt h hs

theorem attachHint_ok (h : g.Covers n) {p : EntryPoint × Id} (hp : p.2 < n) :
    attachHint g p = .ok (EntryPoints.attachHint g p) ∧ (EntryPoints.attachHint g p).Covers n := by
  have hc := h.kind_children_lt p.2
  unfold attachHint EntryPoints.attachHint
  rw [kind_eq (h.lt_size hp), ok_bind]
  generalize g.kind p.2 = k at hc
  cases k
  case function name params body =>
    exact ⟨modify_eq (hc name List.mem_cons_self) _, h.modify (fun _ => rfl) fun _ => rfl⟩
  all_goals exact ⟨rfl, h⟩

theorem attachHints_ok (h : g.Covers n) {e : EntryPoints} (he : ∀ p ∈ e.toList, p.2 < n) :
    attachHints g e = .ok (e.attachHints g) ∧ (e.attachHints g).Covers n :=
  foldlM_ok (I := fun x : Graph => x.Covers n) h fun _ hx p hp => attachHint_ok hx (he p hp)

end EntryPoints

/-! ## Inputs -/

section Inputs

variable (g : Graph)

/-- The type of the first identifier with a name that has one. -/
def typeOfName (name : String) : Checked Ty := do
  let typed ← (← live g).findSomeM? fun i => do
    if (← identName? g i) == some name then ty? g i else return none
  return typed.getD .float

/-- The declarations of all inputs. -/
def declarations (fs : BucketFields) : Checked (List FieldDecl) :=
  fs.toList.mapM fun (bucket, field) => do
    let name := bucket.flatName field
    return { bucket, field, name, ty := ← typeOfName g name }

variable {g} (h : g.InRange)

include h

theorem typeOfName_eq (name : String) :
    typeOfName g name = .ok (BucketFields.typeOfName g name) := by
  unfold typeOfName BucketFields.typeOfName
  rw [live_eq h, ok_bind, findSomeM?_ok (f := fun i =>
    if g.identName? i == some name then g.ty? i else none)]
  · rfl
  · intro i hi
    rw [identName?_eq (h.lt_size hi), ok_bind, ty?_eq (h.lt_size hi)]
    split <;> rfl

theorem declarations_eq (fs : BucketFields) : declarations g fs = .ok (fs.declarations g) := by
  refine mapM_ok fun p _ => ?_
  dsimp only
  rw [typeOfName_eq h]
  rfl

end Inputs

/-! ## The object model -/

section ObjectModel

variable (g : Graph)

/-- Makes `this.x` at a node the identifier `x`. -/
def stripReceiver (i : Id) : Checked Graph := do
  match ← kind g i with
  | .field object property =>
    match ← kind g object, ← identName? g property with
    | .this, some name => replace g i (.ident name)
    | _, _ => return g
  | _ => return g

/-- Makes every `this.x` the identifier `x`. -/
def stripReceivers : Checked Graph := do (← live g).foldlM stripReceiver g

/-- Drops the parameters of an entry point. -/
def dropParams (s : Graph × List Note) (p : EntryPoint × Id) : Checked (Graph × List Note) := do
  let (g, notes) := s
  match ← kind g p.2 with
  | .function _ [] _ => return (g, notes)
  | .function name params body =>
    let dropped ← filterMap (identName? g) params
    return (← replace g p.2 (.function name [] body), notes ++ [.parametersIgnored p.1 dropped])
  | _ => return (g, notes)

/-- Drops the parameters of all entry points. -/
def dropEntryParams (e : EntryPoints) : Checked (Graph × List Note) :=
  e.toList.foldlM dropParams (g, [])

/-- The input that a node accesses. -/
def bucketAccess? (i : Id) : Checked (Option (Bucket × String)) := do
  match ← kind g i with
  | .field object property =>
    match (← identName? g object).bind Bucket.ofName? with
    | none => return none
    | some bucket => return (← identName? g property).map fun field => (bucket, field)
  | _ => return none

/-- Makes an access to an input an identifier and notes the input. -/
def flattenBucket (s : Graph × BucketFields) (i : Id) : Checked (Graph × BucketFields) := do
  let (g, fields) := s
  match ← bucketAccess? g i with
  | some (bucket, field) =>
    return (← replace g i (.ident (bucket.flatName field)), fields.insert bucket field)
  | none => return (g, fields)

/-- Makes every access to an input an identifier. -/
def flattenBuckets : Checked (Graph × BucketFields) := do (← live g).foldlM flattenBucket (g, {})

variable {g} {n : Nat} {i : Id}

theorem stripReceiver_ok (h : g.Covers n) (hi : i < n) :
    stripReceiver g i = .ok (g.stripReceiver i) ∧ (g.stripReceiver i).Covers n := by
  have hcovers := h.changed (Graph.changed_stripReceiver g i) fun hk => hk.sublist.subset
  refine ⟨?_, hcovers⟩
  have hc := h.kind_children_lt i
  unfold stripReceiver Graph.stripReceiver
  rw [kind_eq (h.lt_size hi), ok_bind]
  generalize g.kind i = k at hc
  cases k
  case field object property =>
    dsimp only
    rw [kind_eq (hc object (by simp [Kind.children])), ok_bind,
      identName?_eq (hc property (by simp [Kind.children])), ok_bind]
    cases g.kind object
    case this =>
      cases g.identName? property with
      | none => rfl
      | some name => exact replace_eq (h.lt_size hi) _
    all_goals rfl
  all_goals rfl

theorem stripReceivers_ok (h : g.Covers n) :
    stripReceivers g = .ok g.stripReceivers ∧ g.stripReceivers.Covers n := by
  unfold stripReceivers
  rw [live_eq h.toInRange, ok_bind]
  exact foldlM_ok (I := fun x : Graph => x.Covers n) h
    fun _ hx i hi => stripReceiver_ok hx (h.size_eq ▸ h.toInRange.lt_size hi)

theorem dropParams_ok {s : Graph × List Note} (h : s.1.Covers n) {p : EntryPoint × Id}
    (hp : p.2 < n) :
    dropParams s p = .ok (Graph.dropParams s p) ∧ (Graph.dropParams s p).1.Covers n := by
  have hcovers := h.changed (Graph.changed_dropParams s p) fun hk => hk.sublist.subset
  refine ⟨?_, hcovers⟩
  obtain ⟨g, notes⟩ := s
  have hc := h.kind_children_lt p.2
  unfold dropParams Graph.dropParams
  dsimp only at h ⊢
  rw [kind_eq (h.lt_size hp), ok_bind]
  dsimp only at hc
  generalize g.kind p.2 = k at hc
  cases k
  case function name params body =>
    cases params with
    | nil => rfl
    | cons a as =>
      have hnames : filterMap (identName? g) (a :: as) = .ok ((a :: as).filterMap g.identName?) :=
        filterMap_ok fun q hq => identName?_eq (hc q (by
          rw [Kind.children]
          exact List.mem_cons_of_mem _ (List.mem_append_left _ hq)))
      dsimp only
      rw [hnames, ok_bind, replace_eq (h.lt_size hp)]
      rfl
  all_goals rfl

theorem dropEntryParams_ok (h : g.Covers n) {e : EntryPoints} (he : ∀ p ∈ e.toList, p.2 < n) :
    dropEntryParams g e = .ok (g.dropEntryParams e) ∧ (g.dropEntryParams e).1.Covers n :=
  foldlM_ok (I := fun s : Graph × List Note => s.1.Covers n) h
    fun _ hs p hp => dropParams_ok hs (he p hp)

theorem bucketAccess?_eq (h : g.InRange) (hi : i < g.size) :
    bucketAccess? g i = .ok (g.bucketAccess? i) := by
  have hc := h.kind_children_lt i
  unfold bucketAccess? Graph.bucketAccess?
  rw [kind_eq hi, ok_bind]
  generalize g.kind i = k at hc
  cases k
  case field object property =>
    dsimp only
    rw [identName?_eq (hc object (by simp [Kind.children])), ok_bind]
    cases g.identName? object with
    | none => rfl
    | some name =>
      cases hb : Bucket.ofName? name with
      | none => simp [hb]
      | some bucket =>
        rw [identName?_eq (hc property (by simp [Kind.children]))]
        cases g.identName? property <;> simp [hb]
  all_goals rfl

theorem flattenBucket_ok {s : Graph × BucketFields} (h : s.1.Covers n) (hi : i < n) :
    flattenBucket s i = .ok (Graph.flattenBucket s i) ∧ (Graph.flattenBucket s i).1.Covers n := by
  have hcovers := h.changed (Graph.changed_flattenBucket s i) fun hk => hk.sublist.subset
  refine ⟨?_, hcovers⟩
  obtain ⟨g, fields⟩ := s
  unfold flattenBucket Graph.flattenBucket
  dsimp only at h ⊢
  rw [bucketAccess?_eq h.toInRange (h.lt_size hi), ok_bind]
  cases g.bucketAccess? i with
  | none => rfl
  | some p =>
    dsimp only
    rw [replace_eq (h.lt_size hi)]
    rfl

theorem flattenBuckets_ok (h : g.Covers n) :
    flattenBuckets g = .ok g.flattenBuckets ∧ g.flattenBuckets.1.Covers n := by
  unfold flattenBuckets
  rw [live_eq h.toInRange, ok_bind]
  exact foldlM_ok (I := fun s : Graph × BucketFields => s.1.Covers n) h
    fun _ hs i hi => flattenBucket_ok hs (h.size_eq ▸ h.toInRange.lt_size hi)

end ObjectModel

/-! ## Marks -/

section Marks

variable (g : Graph) (t : Table)

/-- Flags an `out` parameter and renames it where it occurs. -/
def markOutParam (param : Id) : Checked Graph := do
  renameAll (← modify g param ({ · with out := true })) (← occurrences t param) outParamName

/-- The parameters of a function that are spelled `out`. -/
def outParams (f : Id) : Checked (List Id) := do
  match ← kind g f with
  | .function _ params _ => filter (fun p => do return (← identName? g p) == some "out") params
  | _ => return []

/-- Flags and renames the `out` parameters of the top-level functions. -/
def markOutParams : Checked Graph := do
  (← functions g).foldlM (fun g f => do
    (← outParams g f).foldlM (fun g p => markOutParam g t p) g) g

/-- Marks the variable that a declarator declares. -/
def markLocal (i : Id) : Checked Graph := do
  match ← kind g i with
  | .declarator name _ =>
    match ← binding? t name with
    | some b => renameAll g b.occurrences (localMark ++ b.name)
    | none => return g
  | _ => return g

/-- Marks every declared variable. -/
def markLocals : Checked Graph := do (← live g).foldlM (fun g i => markLocal g t i) g

variable {g t} {s : Scopes} {n : Nat} {i : Id}

/-- The numbers in the bindings of a table are below a bound. -/
structure Bounded (s : Scopes) (n : Nat) : Prop where
  occurrence : ∀ {i j}, i < n → j ∈ s.occurrences i → j < n
  binding : ∀ {i b j}, s.bindingOf? i = some b → j ∈ b.occurrences → j < n

theorem markOutParam_ok (h : g.Covers n) (ht : Numbered t s) (hs : Bounded s n) (hi : i < n) :
    markOutParam g t i = .ok (g.markOutParam s i) ∧ (g.markOutParam s i).Covers n := by
  have hflag : (g.modify i ({ · with out := true })).Covers n :=
    h.modify (fun _ => rfl) fun _ => rfl
  refine ⟨?_, hflag.renamed (Graph.changed_renameAll _ _ _)⟩
  unfold markOutParam
  rw [modify_eq (h.lt_size hi), ok_bind, occurrences_eq ht]
  exact renameAll_eq (fun j hj => hflag.lt_size (hs.occurrence hi hj)) _

theorem outParams_eq (h : g.InRange) (hi : i < g.size) :
    outParams g i = .ok (g.outParams i) := by
  have hc := h.kind_children_lt i
  unfold outParams Graph.outParams
  rw [kind_eq hi, ok_bind]
  generalize g.kind i = k at hc
  cases k
  case function name params body =>
    refine filter_ok fun p hp => ?_
    rw [identName?_eq (hc p (by simp [Kind.children, hp]))]
    rfl
  all_goals rfl

theorem outParams_lt (h : g.InRange) {f : Id} (hi : i ∈ g.outParams f) : i < g.size := by
  have hc := h.child_lt (i := f) (c := i)
  unfold Graph.outParams at hi
  unfold Graph.children at hc
  generalize g.kind f = k at hi hc
  cases k
  case function name params body => exact hc (by simp [Kind.children, (List.mem_filter.mp hi).1])
  all_goals cases hi

theorem markOutParams_ok (h : g.Covers n) (ht : Numbered t s) (hs : Bounded s n) :
    markOutParams g t = .ok (g.markOutParams s) ∧ (g.markOutParams s).Covers n := by
  unfold markOutParams
  rw [functions_eq h.toInRange, ok_bind]
  refine foldlM_ok (I := fun x : Graph => x.Covers n) h fun x hx f hf => ?_
  have hf : f < n := h.size_eq ▸ Graph.functions_lt h.toInRange hf
  rw [outParams_eq hx.toInRange (hx.lt_size hf), ok_bind]
  refine foldlM_ok (I := fun y : Graph => y.Covers n) hx fun y hy p hp => ?_
  exact markOutParam_ok hy ht hs (hx.size_eq ▸ outParams_lt hx.toInRange hp)

theorem markLocal_ok (h : g.Covers n) (ht : Numbered t s) (hs : Bounded s n) (hi : i < n) :
    markLocal g t i = .ok (g.markLocal s i) ∧ (g.markLocal s i).Covers n := by
  unfold markLocal Graph.markLocal
  rw [kind_eq (h.lt_size hi), ok_bind]
  cases g.kind i
  case declarator name init =>
    dsimp only
    rw [binding?_eq ht, ok_bind]
    cases hb : s.bindingOf? name with
    | none => exact ⟨rfl, h⟩
    | some b =>
      exact ⟨renameAll_eq (fun j hj => h.lt_size (hs.binding hb hj)) _,
        h.renamed (Graph.changed_renameAll _ _ _)⟩
  all_goals exact ⟨rfl, h⟩

theorem markLocals_ok (h : g.Covers n) (ht : Numbered t s) (hs : Bounded s n) :
    markLocals g t = .ok (g.markLocals s) ∧ (g.markLocals s).Covers n := by
  unfold markLocals
  rw [live_eq h.toInRange, ok_bind]
  refine foldlM_ok (I := fun x : Graph => x.Covers n) h fun x hx i hi => ?_
  exact markLocal_ok hx ht hs (h.size_eq ▸ h.toInRange.lt_size hi)

end Marks

/-! ## The whole of flattening -/

/-- Replaces the object model by flat identifiers. -/
def flatten (g : Graph) (e : EntryPoints) : Checked Flattened := do
  let (g, notes) ← dropEntryParams (← stripReceivers g) e
  let (g, fields) ← flattenBuckets g
  let g ← link g
  let t ← resolve g
  return { graph := ← markLocals (← markOutParams g t) t, fields, notes }

theorem bounded_resolve {g : Graph} (h : g.InRange) : Bounded (Scopes.resolve g) g.size :=
  ⟨Graph.occurrences_lt h, Graph.bindingOf?_lt h⟩

/-- **No step of flattening fails**, and it leaves a closed graph with the same nodes. -/
theorem flatten_ok {g : Graph} {e : EntryPoints} (h : g.Closed)
    (he : ∀ p ∈ e.toList, p.2 < g.size) :
    flatten g e = .ok (ShaderScript.flatten g e) ∧
      (ShaderScript.flatten g e).graph.Covers g.size := by
  obtain ⟨hstrip, cstrip⟩ := stripReceivers_ok h.covers
  obtain ⟨hdrop, cdrop⟩ := dropEntryParams_ok cstrip he
  obtain ⟨hbuckets, cbuckets⟩ := flattenBuckets_ok cdrop
  have clink : (g.flat e).Covers g.size := cbuckets.link
  have hlink : link (g.stripReceivers.dropEntryParams e).1.flattenBuckets.1 = .ok (g.flat e) :=
    link_eq cbuckets.toInRange
  obtain ⟨t, hresolve, ht⟩ := resolve_ok clink.toClosed
  have hs : Bounded (Scopes.resolve (g.flat e)) g.size :=
    clink.size_eq ▸ bounded_resolve clink.toInRange
  obtain ⟨hout, cout⟩ := markOutParams_ok clink ht hs
  obtain ⟨hlocals, clocals⟩ := markLocals_ok cout ht hs
  constructor
  · unfold flatten
    rw [hstrip, ok_bind, hdrop, ok_bind]
    dsimp only
    rw [hbuckets, ok_bind]
    rw [hlink, ok_bind, hresolve, ok_bind, hout, ok_bind, hlocals]
    rfl
  · rw [flatten_graph]
    exact clocals

end ShaderScript.Checked
