import ShaderScript.Proofs.Flatten.Accesses
import ShaderScript.Proofs.Graph.Rewrite

/-!
# How the source reads the object model

Flattening goes through the program twice, first for the receiver and then for the buckets, and
never comes back to a node. It turns an access into an identifier if the property of the access is
an identifier when its turn comes. So what it makes of a node can be read off the source.

* `Graph.receiverName?`, `Graph.bareName?`, `Graph.fieldOf?`: how the source refers to a name and to
  a field of a bucket.
* `Graph.readsObject`: the accesses that become identifiers.
* `Graph.kind_stripReceivers`, `Graph.kind_dropEntryParams`, `Graph.kind_flattenBuckets_eq`: what
  each pass makes of a node.
* `Graph.bucketAccess?_bare`: the accesses that the last pass finds are those that the source has.
* **`Graph.kind_flat_eq`**, **`Graph.isSome_identName?_flat`**: what becomes of a node.
-/

namespace ShaderScript

/-- The node without parameters, if it is a function. -/
def Kind.withoutParams : Kind → Kind
  | function name _ body => function name [] body
  | k => k

theorem Kind.withoutParams_withoutParams (k : Kind) :
    k.withoutParams.withoutParams = k.withoutParams := by
  cases k <;> rfl

namespace Graph

variable {g : Graph} {e : EntryPoints} {i j : Id} {b : Bucket} {f : String}

/-! ## Names in the source -/

/-- The name after the receiver, as `x` in `this.x`. -/
def receiverName? (g : Graph) (i : Id) : Option String :=
  match g.kind i with
  | .field object property =>
    match g.kind object with
    | .this => g.identName? property
    | _ => none
  | _ => none

/-- The name that a node gives, bare or after the receiver. -/
def bareName? (g : Graph) (i : Id) : Option String := (g.identName? i).or (g.receiverName? i)

/-- The field that a node reads from a bucket: `f` in `b.f`, where both names may stand after the
receiver. -/
def fieldOf? (g : Graph) (b : Bucket) (i : Id) : Option String :=
  match g.kind i with
  | .field object property =>
    if g.bareName? object = some b.name then g.bareName? property else none
  | _ => none

/-- Whether a node is a name after the receiver or a field of a bucket. -/
def readsObject (g : Graph) (i : Id) : Bool :=
  (g.receiverName? i).isSome || Bucket.all.any fun b => (g.fieldOf? b i).isSome

theorem receiverName?_eq_some {n : String} : g.receiverName? i = some n ↔
    ∃ o p, g.kind i = .field o p ∧ g.kind o = .this ∧ g.kind p = .ident n := by
  unfold receiverName?
  constructor
  · intro h
    split at h
    case h_2 => cases h
    case h_1 o p hk =>
      split at h
      case h_2 => cases h
      case h_1 ho => exact ⟨o, p, hk, ho, identName?_eq_some.mp h⟩
  · rintro ⟨o, p, hk, ho, hp⟩
    rw [hk]
    dsimp only
    rw [ho]
    exact identName?_eq_some.mpr hp

theorem fieldOf?_eq_some : g.fieldOf? b i = some f ↔
    ∃ o p, g.kind i = .field o p ∧ g.bareName? o = some b.name ∧ g.bareName? p = some f := by
  unfold fieldOf?
  constructor
  · intro h
    split at h
    case h_2 => cases h
    case h_1 o p hk =>
      split_ifs at h with ho
      exact ⟨o, p, hk, ho, h⟩
  · rintro ⟨o, p, hk, ho, hp⟩
    rw [hk]
    dsimp only
    rw [if_pos ho, hp]

theorem readsObject_iff : g.readsObject i = true ↔
    (g.receiverName? i).isSome ∨ ∃ b f, g.fieldOf? b i = some f := by
  have hall : ∀ b : Bucket, b ∈ Bucket.all := fun b => by cases b <;> decide
  simp [readsObject, Option.isSome_iff_exists, hall]

theorem readsObject_of_kind (hi : ∀ o p, g.kind i ≠ .field o p) : g.readsObject i = false := by
  rw [← Bool.not_eq_true, readsObject_iff, Option.isSome_iff_exists]
  rintro (⟨n, hn⟩ | ⟨b, f, hf⟩)
  · obtain ⟨o, p, hk, -⟩ := receiverName?_eq_some.mp hn
    exact hi o p hk
  · obtain ⟨o, p, hk, -⟩ := fieldOf?_eq_some.mp hf
    exact hi o p hk

/-! ## Receivers -/

/-- What taking off the receiver makes of a node. -/
def stripped? (g : Graph) (i : Id) : Option Kind := (g.receiverName? i).map .ident

theorem stripReceiver_eq (g : Graph) (i : Id) : g.stripReceiver i = rewrite stripped? g i := by
  unfold rewrite stripped?
  cases hn : g.receiverName? i with
  | some n =>
    obtain ⟨o, p, hk, ho, hp⟩ := receiverName?_eq_some.mp hn
    unfold stripReceiver
    rw [hk]
    dsimp only
    rw [ho, identName?_eq_some.mpr hp]
    rfl
  | none =>
    rcases stripReceiver_cases g i with he | ⟨o, p, n, hk, ho, hp, -⟩
    · exact he
    · rw [receiverName?_eq_some.mpr ⟨o, p, hk, ho, hp⟩] at hn
      cases hn

theorem local_stripped? : Local stripped? := by
  intro x y i h
  unfold stripped? receiverName?
  rw [h.1]
  cases hk : y.kind i with
  | field o p =>
    have ho := h.2 o (by rw [children, hk]; exact List.mem_cons_self)
    have hp := h.2 p (by rw [children, hk]; exact List.mem_cons_of_mem _ List.mem_cons_self)
    dsimp only
    rw [ho, identName?, identName?, hp]
  | _ => rfl

section Trees

variable (h : g.IsTree)

include h

theorem kind_stripReceivers (j : Id) : g.stripReceivers.kind j =
    if j ∈ g.live then (stripped? g j).getD (g.kind j) else g.kind j := by
  unfold stripReceivers
  rw [show Graph.stripReceiver = rewrite stripped? from
    funext fun x => funext (stripReceiver_eq x)]
  exact kind_foldl_rewrite local_stripped? h.downward_live (fun i hi => h.lt_size hi) j

theorem identName?_stripReceivers (hj : j ∈ g.live) :
    g.stripReceivers.identName? j = g.bareName? j := by
  have hk := kind_stripReceivers h j
  rw [if_pos hj, stripped?] at hk
  unfold bareName?
  cases hn : g.receiverName? j with
  | none =>
    rw [hn] at hk
    rw [Option.or_none, identName?, hk]
    rfl
  | some n =>
    rw [hn] at hk
    have hbare : g.identName? j = none := by
      obtain ⟨o, p, hf, -⟩ := receiverName?_eq_some.mp hn
      rw [identName?, hf]
    rw [hbare, identName?_eq_some.mpr hk]
    rfl

end Trees

/-! ## Parameters of entry points -/

theorem kind_dropParams (s : Graph × List Note) (p : EntryPoint × Id) (j : Id) :
    (dropParams s p).1.kind j = if p.2 = j then (s.1.kind j).withoutParams else s.1.kind j := by
  obtain ⟨x, notes⟩ := s
  unfold dropParams
  dsimp only
  split
  case h_1 name body hk =>
    split_ifs with hj
    · rw [← hj, hk]
      rfl
    · rfl
  case h_2 name params body _ hk =>
    split_ifs with hj
    · subst hj
      rw [kind_replace_self _ _ (lt_size_of_kind (by rw [hk]; nofun)), hk]
      rfl
    · exact kind_replace_of_ne _ _ hj
  case h_3 hno =>
    split_ifs with hj
    · subst hj
      dsimp only
      cases hk : x.kind p.2 with
      | function name params body => exact absurd hk (hno name params body)
      | _ => rfl
    · rfl

theorem kind_dropEntryParams (g : Graph) (e : EntryPoints) (j : Id) :
    (g.dropEntryParams e).1.kind j =
      if e.contains j then (g.kind j).withoutParams else g.kind j := by
  have hall : ∀ ps : List (EntryPoint × Id), (ps.foldl dropParams (g, [])).1.kind j =
      if ps.any fun p => p.2 == j then (g.kind j).withoutParams else g.kind j := by
    intro ps
    induction ps using List.reverseRecOn with
    | nil => rfl
    | append_singleton ps p ih =>
      rw [List.foldl_append, List.foldl_cons, List.foldl_nil, kind_dropParams, ih]
      by_cases hp : p.2 = j
      · by_cases hps : ps.any fun p => p.2 == j
        · rw [if_pos hp, if_pos hps, if_pos (by simp [hps]), Kind.withoutParams_withoutParams]
        · rw [if_pos hp, if_neg hps, if_pos (by simp [hp])]
      · have hany : (ps ++ [p]).any (fun p => p.2 == j) = ps.any fun p => p.2 == j := by
          simp [hp]
        rw [if_neg hp, hany]
  exact hall e.toList

/-! ## Buckets -/

/-- What flattening a bucket makes of a node. -/
def flatAccess? (g : Graph) (i : Id) : Option Kind :=
  (g.bucketAccess? i).map fun p => .ident (p.1.flatName p.2)

theorem local_bucketAccess? : Local bucketAccess? := by
  intro x y i h
  unfold bucketAccess?
  rw [h.1]
  cases hk : y.kind i with
  | field o p =>
    have ho := h.2 o (by rw [children, hk]; exact List.mem_cons_self)
    have hp := h.2 p (by rw [children, hk]; exact List.mem_cons_of_mem _ List.mem_cons_self)
    dsimp only
    rw [identName?, identName?, identName?, identName?, ho, hp]
  | _ => rfl

theorem local_flatAccess? : Local flatAccess? := fun h =>
  congrArg (Option.map _) (local_bucketAccess? h)

theorem flattenBucket_eq (s : Graph × BucketFields) (i : Id) : flattenBucket s i =
    (rewrite flatAccess? s.1 i,
      (s.1.bucketAccess? i).toList.foldl (fun fs p => fs.insert p.1 p.2) s.2) := by
  obtain ⟨x, fields⟩ := s
  unfold flattenBucket rewrite flatAccess?
  dsimp only
  cases x.bucketAccess? i <;> rfl

/-- Flattening the buckets is two passes in one: it rewrites the accesses and notes the inputs. -/
theorem foldl_flattenBucket {is : List Id} (hd : g.Downward is) (hlt : ∀ i ∈ is, i < g.size) :
    is.foldl flattenBucket (g, {}) = (is.foldl (rewrite flatAccess?) g,
      (is.filterMap g.bucketAccess?).foldl (fun fs p => fs.insert p.1 p.2) {}) := by
  induction is using List.reverseRecOn with
  | nil => rfl
  | append_singleton before i ih =>
    have hbefore : ∀ j ∈ before, j < g.size := fun j hj => hlt j (List.mem_append_left _ hj)
    have haccess := local_bucketAccess? (agreeAt_foldl_rewrite local_flatAccess? hd hbefore)
    have hone : [i].filterMap g.bucketAccess? = (g.bucketAccess? i).toList := by
      cases hi : g.bucketAccess? i <;> simp [hi]
    simp only [List.foldl_append, List.foldl_cons, List.foldl_nil, List.filterMap_append]
    rw [ih (List.pairwise_append.mp hd).1 hbefore, flattenBucket_eq, haccess, hone]

theorem flatName_ne_name (b b' : Bucket) (f : String) : b.flatName f ≠ b'.name := by
  have hno : ¬ b.stem.toList <+: b'.name.toList := by cases b <;> cases b' <;> decide
  intro he
  refine hno (he ▸ ?_)
  rw [Bucket.flatName, String.toList_append]
  exact List.prefix_append _ _

section Trees

variable (h : g.IsTree)

include h

theorem kind_flattenBuckets_eq (j : Id) : g.flattenBuckets.1.kind j =
    if j ∈ g.live then (flatAccess? g j).getD (g.kind j) else g.kind j := by
  unfold flattenBuckets
  rw [foldl_flattenBucket h.downward_live fun i hi => h.lt_size hi]
  exact kind_foldl_rewrite local_flatAccess? h.downward_live (fun i hi => h.lt_size hi) j

end Trees

/-! ## The program before its buckets are flattened -/

/-- The program without receivers and without the parameters of its entry points. -/
def bare (g : Graph) (e : EntryPoints) : Graph := (g.stripReceivers.dropEntryParams e).1

theorem changed_bare (g : Graph) (e : EntryPoints) : Changed Kind.Flattened g (g.bare e) :=
  (changed_stripReceivers g).trans .trans (changed_dropEntryParams _ e)

section Trees

variable (h : g.IsTree)

include h

theorem isTree_bare (e : EntryPoints) : (g.bare e).IsTree :=
  (changed_bare g e).isTree Kind.Flattened.sublist h

theorem kind_bare (e : EntryPoints) (hj : g.receiverName? j = none) : (g.bare e).kind j =
    if e.contains j then (g.kind j).withoutParams else g.kind j := by
  have hk := kind_stripReceivers h j
  rw [stripped?, hj, Option.map_none, Option.getD_none, ite_self] at hk
  unfold bare
  rw [kind_dropEntryParams, hk]

theorem identName?_bare (e : EntryPoints) (hj : j ∈ g.live) :
    (g.bare e).identName? j = g.bareName? j := by
  rw [← identName?_stripReceivers h hj]
  unfold bare identName?
  rw [kind_dropEntryParams]
  split_ifs
  · cases g.stripReceivers.kind j <;> rfl
  · rfl

theorem bucketAccess?_bare (e : EntryPoints) (hj : j ∈ g.live) :
    (g.bare e).bucketAccess? j = some (b, f) ↔ g.fieldOf? b j = some f := by
  have name : ∀ {o p c}, g.kind j = .field o p → c ∈ [o, p] →
      (g.bare e).identName? c = g.bareName? c := fun hk hc =>
    identName?_bare h e (h.child_live hj (by rwa [children, hk]))
  rw [bucketAccess?_eq_some, fieldOf?_eq_some]
  constructor
  · rintro ⟨o, p, hk, ho, hp⟩
    have hsource : g.kind j = .field o p := by
      have hflat := (changed_bare g e).kind j
      rw [hk] at hflat
      generalize g.kind j = k at hflat
      cases hflat
      rfl
    rw [← identName?_eq_some, name hsource (by simp)] at ho hp
    exact ⟨o, p, hsource, ho, hp⟩
  · rintro ⟨o, p, hk, ho, hp⟩
    refine ⟨o, p, ?_, ?_, ?_⟩
    · have hrec : g.receiverName? j = none := by
        rw [Option.eq_none_iff_forall_ne_some]
        intro n hn
        obtain ⟨o', p', hk', ho', -⟩ := receiverName?_eq_some.mp hn
        rw [hk] at hk'
        cases hk'
        rw [bareName?, identName?, receiverName?, ho'] at ho
        cases ho
      rw [kind_bare h e hrec, hk]
      split_ifs <;> rfl
    · rw [← identName?_eq_some, name hk (by simp), ho]
    · rw [← identName?_eq_some, name hk (by simp), hp]

theorem kind_bare_function (e : EntryPoints) {name body : Id} {params : List Id}
    (hk : g.kind j = .function name params body) : (g.bare e).kind j =
      if e.contains j then .function name [] body else .function name params body := by
  have hrec : g.receiverName? j = none := by
    rw [receiverName?, hk]
  rw [kind_bare h e hrec, hk]
  rfl

end Trees

/-! ## What becomes of a node -/

section Kinds

variable (h : g.IsTree)

include h

theorem kind_flat_bare (e : EntryPoints) (j : Id) : (g.flat e).kind j =
    if j ∈ (g.bare e).live then (flatAccess? (g.bare e) j).getD ((g.bare e).kind j)
    else (g.bare e).kind j := by
  rw [flat_eq h e]
  exact kind_flattenBuckets_eq (isTree_bare h e) j

theorem live_bare_of_live_flat (hi : i ∈ (g.flat e).live) : i ∈ (g.bare e).live := by
  rw [flat_eq h e] at hi
  exact (changed_flattenBuckets _).live_of_live Kind.Flattened.sublist hi

/-- **A node that reads nothing from the object model stays what it is**, the parameters of entry
points apart. -/
theorem kind_flat_eq (e : EntryPoints) (hj : g.readsObject j = false) : (g.flat e).kind j =
    if e.contains j then (g.kind j).withoutParams else g.kind j := by
  have hno := mt readsObject_iff.mpr (by rw [hj]; nofun)
  rw [not_or] at hno
  have hrec : g.receiverName? j = none := Option.not_isSome_iff_eq_none.mp hno.1
  rw [← kind_bare h e hrec, kind_flat_bare h e]
  split_ifs with hl
  · have haccess : (g.bare e).bucketAccess? j = none := by
      refine Option.eq_none_iff_forall_ne_some.mpr fun p hp => hno.2 ⟨p.1, p.2, ?_⟩
      exact (bucketAccess?_bare h e
        ((changed_bare g e).live_of_live Kind.Flattened.sublist hl)).mp hp
    rw [flatAccess?, haccess]
    rfl
  · rfl

theorem isSome_identName?_flat (hi : i ∈ (g.flat e).live) :
    ((g.flat e).identName? i).isSome ↔ (g.identName? i).isSome ∨ g.readsObject i = true := by
  have hx := live_bare_of_live_flat h hi
  have hl := (changed_bare g e).live_of_live Kind.Flattened.sublist hx
  have hk := kind_flat_bare h e i
  rw [if_pos hx, flatAccess?] at hk
  rw [readsObject_iff]
  cases ha : (g.bare e).bucketAccess? i with
  | some p =>
    rw [ha] at hk
    have hf := (bucketAccess?_bare h e hl).mp ha
    rw [identName?_eq_some.mpr hk]
    exact ⟨fun _ => .inr (.inr ⟨p.1, p.2, hf⟩), fun _ => rfl⟩
  | none =>
    rw [ha] at hk
    have hname : (g.flat e).identName? i = g.bareName? i := by
      rw [← identName?_bare h e hl, identName?, hk]
      rfl
    have hno : ¬ ∃ b f, g.fieldOf? b i = some f := by
      rintro ⟨b, f, hf⟩
      rw [(bucketAccess?_bare h e hl).mpr hf] at ha
      cases ha
    rw [hname, bareName?, or_iff_left hno, Option.isSome_or, Bool.or_eq_true]

/-- A flat program has the name of a bucket only where the source has it. -/
theorem bareName?_of_bucket (hi : i ∈ (g.flat e).live) (hb : (g.flat e).kind i = .ident b.name) :
    g.bareName? i = some b.name := by
  have hx := live_bare_of_live_flat h hi
  have hk := kind_flat_bare h e i
  rw [if_pos hx, flatAccess?, hb] at hk
  cases ha : (g.bare e).bucketAccess? i with
  | some p =>
    rw [ha] at hk
    have hname := Kind.ident.inj hk
    exact absurd hname.symm (flatName_ne_name p.1 b p.2)
  | none =>
    rw [ha] at hk
    rw [← identName?_bare h e ((changed_bare g e).live_of_live Kind.Flattened.sublist hx)]
    exact identName?_eq_some.mpr hk.symm

end Kinds

end Graph

end ShaderScript
