import ShaderScript.Flatten
import ShaderScript.Proofs.Graph.Link

/-!
# Accesses become identifiers

Before any name gets a mark, flattening takes off receivers, drops the parameters of entry points
and turns accesses to inputs into identifiers. The program stays a tree all along, and every access
that is still part of it at the end has its flat name.

* `Graph.Access`: a node is an access to an input, directly or through the receiver.
* `Graph.flat`: the program with flat accesses and without marks.
* `Kind.Flattened`, `Graph.changed_flat`: what may happen to a node.
* **`Graph.kind_flat_access`**: an access becomes the identifier with its flat name.
* **`Graph.mem_fields_flatten`**: its input is noted.
-/

namespace ShaderScript

theorem Bucket.ofName?_eq_some {s : String} {b : Bucket} :
    Bucket.ofName? s = some b ↔ s = b.name := by
  constructor
  · intro h
    unfold ofName? at h
    exact (eq_of_beq (List.find?_some (p := fun b : Bucket => b.name == s) h)).symm
  · rintro rfl
    cases b <;> decide

namespace BucketFields

variable {fs : BucketFields} {p : Bucket × String}

theorem mem_used_insert {b : Bucket} {f : String} :
    p ∈ (fs.insert b f).used ↔ p ∈ fs.used ∨ p = (b, f) := by
  unfold insert
  split_ifs with h
  · refine ⟨.inl, ?_⟩
    rintro (hp | rfl)
    · exact hp
    · exact List.contains_iff_mem.mp h
  · rw [List.mem_append, List.mem_singleton]

theorem mem_toList : p ∈ fs.toList ↔ p ∈ fs.used := by
  obtain ⟨b, f⟩ := p
  have hb : b ∈ Bucket.all := by cases b <;> decide
  simp [toList, get, hb]

end BucketFields

/-- What flattening may make of a node before names are marked. -/
inductive Kind.Flattened : Kind → Kind → Prop
  | refl (k : Kind) : Flattened k k
  | access (object property : Id) (name : String) :
      Flattened (.field object property) (.ident name)
  | entry (name : Id) (params : List Id) (body : Id) :
      Flattened (.function name params body) (.function name [] body)

namespace Kind.Flattened

theorem trans {k k' k'' : Kind} (h : Flattened k k') (h' : Flattened k' k'') :
    Flattened k k'' := by
  cases h with
  | refl => exact h'
  | access object property name =>
    cases h'
    exact .access object property name
  | entry name params body =>
    cases h' with
    | refl => exact .entry name params body
    | entry => exact .entry name params body

theorem sublist {k k' : Kind} (h : Flattened k k') : k'.children.Sublist k.children := by
  cases h with
  | refl => exact List.Sublist.refl _
  | access => exact List.nil_sublist _
  | entry name params body => exact ((List.nil_sublist params).append_right [body]).cons_cons name

end Kind.Flattened

namespace Graph

variable {g : Graph} {i : Id} {b : Bucket} {f : String}

/-! ## The single steps -/

theorem stripReceiver_cases (g : Graph) (j : Id) : g.stripReceiver j = g ∨
    ∃ o p n, g.kind j = .field o p ∧ g.kind o = .this ∧ g.kind p = .ident n ∧
      g.stripReceiver j = g.replace j (.ident n) := by
  unfold stripReceiver
  split
  case h_2 => exact .inl rfl
  case h_1 o p hk =>
    split
    case h_2 => exact .inl rfl
    case h_1 n ho hp => exact .inr ⟨o, p, n, hk, ho, identName?_eq_some.mp hp, rfl⟩

theorem dropParams_cases (s : Graph × List Note) (p : EntryPoint × Id) :
    (dropParams s p).1 = s.1 ∨ ∃ name params body, s.1.kind p.2 = .function name params body ∧
      (dropParams s p).1 = s.1.replace p.2 (.function name [] body) := by
  obtain ⟨g, notes⟩ := s
  unfold dropParams
  dsimp only
  split
  case h_1 => exact .inl rfl
  case h_2 name params body _ hk => exact .inr ⟨name, params, body, hk, rfl⟩
  case h_3 => exact .inl rfl

theorem bucketAccess?_eq_some : g.bucketAccess? i = some (b, f) ↔
    ∃ o p, g.kind i = .field o p ∧ g.kind o = .ident b.name ∧ g.kind p = .ident f := by
  unfold bucketAccess?
  constructor
  · intro h
    split at h
    case h_2 => cases h
    case h_1 o p hk =>
      obtain ⟨n, hn, h⟩ := Option.bind_eq_some_iff.mp h
      obtain ⟨b', hb', h⟩ := Option.bind_eq_some_iff.mp h
      obtain ⟨f', hf', h⟩ := Option.bind_eq_some_iff.mp h
      cases h
      rw [Bucket.ofName?_eq_some.mp hb'] at hn
      exact ⟨o, p, hk, identName?_eq_some.mp hn, identName?_eq_some.mp hf'⟩
  · rintro ⟨o, p, hk, ho, hp⟩
    rw [hk]
    simp [identName?_eq_some.mpr ho, identName?_eq_some.mpr hp, Bucket.ofName?_eq_some.mpr rfl]

theorem flattenBucket_cases (s : Graph × BucketFields) (j : Id) :
    (flattenBucket s j).1 = s.1 ∧ s.1.bucketAccess? j = none ∨
    ∃ b f, s.1.bucketAccess? j = some (b, f) ∧
      (flattenBucket s j).1 = s.1.replace j (.ident (b.flatName f)) := by
  obtain ⟨g, fields⟩ := s
  unfold flattenBucket
  dsimp only
  cases h : g.bucketAccess? j with
  | none => exact .inl ⟨rfl, rfl⟩
  | some p => exact .inr ⟨p.1, p.2, rfl, rfl⟩

/-! ## The program without marks -/

/-- The program with flat accesses and without marks. -/
def flat (g : Graph) (e : EntryPoints) : Graph :=
  ((g.stripReceivers.dropEntryParams e).1.flattenBuckets).1.link

theorem changed_stripReceiver (g : Graph) (j : Id) :
    Changed Kind.Flattened g (g.stripReceiver j) := by
  rcases stripReceiver_cases g j with he | ⟨o, p, n, hk, -, -, he⟩
  · rw [he]
    exact .refl .refl g
  · rw [he]
    exact .replace .refl (hk ▸ .access o p n)

theorem changed_stripReceivers (g : Graph) : Changed Kind.Flattened g g.stripReceivers :=
  .foldl id .refl .trans fun x j _ => changed_stripReceiver x j

theorem changed_dropParams (s : Graph × List Note) (p : EntryPoint × Id) :
    Changed Kind.Flattened s.1 (dropParams s p).1 := by
  rcases dropParams_cases s p with he | ⟨name, params, body, hk, he⟩
  · rw [he]
    exact .refl .refl s.1
  · rw [he]
    exact .replace .refl (hk ▸ .entry name params body)

theorem changed_dropEntryParams (g : Graph) (e : EntryPoints) :
    Changed Kind.Flattened g (g.dropEntryParams e).1 :=
  Changed.foldl (s := (g, [])) Prod.fst .refl .trans fun s p _ => changed_dropParams s p

theorem changed_flattenBucket (s : Graph × BucketFields) (j : Id) :
    Changed Kind.Flattened s.1 (flattenBucket s j).1 := by
  rcases flattenBucket_cases s j with ⟨he, -⟩ | ⟨b, f, ha, he⟩
  · rw [he]
    exact .refl .refl s.1
  · obtain ⟨o, p, hk, -, -⟩ := bucketAccess?_eq_some.mp ha
    rw [he]
    exact .replace .refl (hk ▸ .access o p (b.flatName f))

theorem changed_flattenBuckets (g : Graph) : Changed Kind.Flattened g g.flattenBuckets.1 :=
  Changed.foldl (s := (g, ({} : BucketFields))) Prod.fst .refl .trans
    fun s j _ => changed_flattenBucket s j

theorem changed_unlinked (g : Graph) (e : EntryPoints) :
    Changed Kind.Flattened g (g.stripReceivers.dropEntryParams e).1.flattenBuckets.1 :=
  ((changed_stripReceivers g).trans .trans (changed_dropEntryParams _ e)).trans .trans
    (changed_flattenBuckets _)

theorem root_flat (g : Graph) (e : EntryPoints) : (g.flat e).root = g.root :=
  (sameShape_link _).root.trans (changed_unlinked g e).root

/-- What flattening makes of a node, also where a node has two places. -/
theorem kind_flat (g : Graph) (e : EntryPoints) (i : Id) :
    Kind.Flattened (g.kind i) ((g.flat e).kind i) := by
  have hk : (g.flat e).kind i = _ := (sameShape_link _).kind i
  rw [hk]
  exact (changed_unlinked g e).kind i

section Trees

variable (h : g.IsTree) (e : EntryPoints)

include h

theorem flat_eq : g.flat e = (g.stripReceivers.dropEntryParams e).1.flattenBuckets.1 := by
  have hs := (changed_stripReceivers g).isTree Kind.Flattened.sublist h
  have hd := (changed_dropEntryParams g.stripReceivers e).isTree Kind.Flattened.sublist hs
  exact ((changed_flattenBuckets _).isTree Kind.Flattened.sublist hd).link_eq

/-- **Flattening leaves every node where it is** until names are marked. -/
theorem changed_flat : Changed Kind.Flattened g (g.flat e) := by
  rw [flat_eq h e]
  exact changed_unlinked g e

theorem isTree_flat : (g.flat e).IsTree := (changed_flat h e).isTree Kind.Flattened.sublist h

end Trees

/-! ## Accesses -/

/-- The node is an access to a field of a bucket, and the two nodes are its object and its
property. The object is the bucket by name, directly or through the receiver. -/
structure AccessAt (g : Graph) (i object property : Id) (b : Bucket) (f : String) : Prop where
  node : g.kind i = .field object property
  property : g.kind property = .ident f
  object : g.kind object = .ident b.name ∨
    ∃ t q, g.kind object = .field t q ∧ g.kind t = .this ∧ g.kind q = .ident b.name

/-- The node is an access `b.f` or `this.b.f` to an input. -/
def Access (g : Graph) (i : Id) (b : Bucket) (f : String) : Prop :=
  ∃ object property, g.AccessAt i object property b f

variable {o p : Id}

theorem AccessAt.stripReceiver (ha : g.AccessAt i o p b f) (j : Id) :
    (g.stripReceiver j).AccessAt i o p b f := by
  rcases stripReceiver_cases g j with he | ⟨o', p', n, hj, ho', hp', he⟩
  · rw [he]
    exact ha
  obtain ⟨hi, hp, ho⟩ := ha
  have hji : j ≠ i := by
    rintro rfl
    rw [hi] at hj
    cases hj
    rw [ho'] at ho
    rcases ho with ho | ⟨t, q, ho, -⟩ <;> cases ho
  have keep : ∀ {l : Id} {k : Kind}, g.kind l = k → (∀ o p, k ≠ .field o p) →
      (g.stripReceiver j).kind l = k := by
    intro l k hl hk
    have hjl : j ≠ l := by
      rintro rfl
      exact hk o' p' (hl.symm.trans hj)
    rw [he, kind_replace_of_ne _ _ hjl, hl]
  refine ⟨?_, keep hp (by intro o p; nofun), ?_⟩
  · rw [he, kind_replace_of_ne _ _ hji, hi]
  · rcases ho with ho | ⟨t, q, ho, ht, hq⟩
    · exact .inl (keep ho (by intro o p; nofun))
    · by_cases hjo : j = o
      · subst hjo
        rw [ho] at hj
        cases hj
        rw [hq] at hp'
        cases hp'
        rw [he, kind_replace_self _ _ (lt_size_of_kind (by rw [ho]; nofun))]
        exact .inl rfl
      · refine .inr ⟨t, q, ?_, keep ht (by intro o p; nofun), keep hq (by intro o p; nofun)⟩
        rw [he, kind_replace_of_ne _ _ hjo, ho]

theorem AccessAt.stripReceiver_object (ha : g.AccessAt i o p b f) :
    (g.stripReceiver o).kind o = .ident b.name := by
  rcases ha.object with ho | ⟨t, q, ho, ht, hq⟩
  · unfold Graph.stripReceiver
    rw [ho]
    exact ho
  · unfold Graph.stripReceiver
    rw [ho]
    dsimp only
    rw [ht, identName?_eq_some.mpr hq]
    exact kind_replace_self _ _ (lt_size_of_kind (by rw [ho]; nofun))

theorem kind_stripReceiver_ident {j : Id} {n : String} (hi : g.kind i = .ident n) :
    (g.stripReceiver j).kind i = .ident n := by
  rcases stripReceiver_cases g j with he | ⟨o, p, n', hj, -, -, he⟩
  · rw [he, hi]
  · have hji : j ≠ i := by
      rintro rfl
      rw [hi] at hj
      cases hj
    rw [he, kind_replace_of_ne _ _ hji, hi]

theorem bucketAccess?_stripReceivers (h : g.IsTree) (hi : i ∈ g.live) (ha : g.Access i b f) :
    g.stripReceivers.bucketAccess? i = some (b, f) := by
  obtain ⟨o, p, ha⟩ := ha
  have ho : o ∈ g.live := by
    refine h.child_live hi ?_
    rw [children, ha.node]
    exact List.mem_cons_self
  have hkeep : g.stripReceivers.AccessAt i o p b f :=
    List.foldlRecOn (motive := fun x => x.AccessAt i o p b f) g.live Graph.stripReceiver ha
      fun _ hx j _ => hx.stripReceiver j
  have hdirect : g.stripReceivers.kind o = .ident b.name :=
    foldl_reaches (P := fun x : Graph => x.AccessAt i o p b f)
      (Q := fun x : Graph => x.kind o = .ident b.name) ho
      (fun x j _ hx => hx.stripReceiver j) (fun x hx => hx.stripReceiver_object)
      (fun x j _ _ hx => kind_stripReceiver_ident hx) ha
  exact bucketAccess?_eq_some.mpr ⟨o, p, hkeep.node, hdirect, hkeep.property⟩

theorem bucketAccess?_replace {j : Id} {k : Kind} (ha : g.bucketAccess? i = some (b, f))
    (hji : j ≠ i) (hj : ∀ n, g.kind j ≠ .ident n) :
    (g.replace j k).bucketAccess? i = some (b, f) := by
  obtain ⟨o, p, hk, ho, hp⟩ := bucketAccess?_eq_some.mp ha
  have hjo : j ≠ o := fun he => hj _ (he ▸ ho)
  have hjp : j ≠ p := fun he => hj _ (he ▸ hp)
  refine bucketAccess?_eq_some.mpr ⟨o, p, ?_, ?_, ?_⟩
  · rw [kind_replace_of_ne _ _ hji, hk]
  · rw [kind_replace_of_ne _ _ hjo, ho]
  · rw [kind_replace_of_ne _ _ hjp, hp]

theorem bucketAccess?_dropEntryParams (e : EntryPoints) (ha : g.bucketAccess? i = some (b, f)) :
    (g.dropEntryParams e).1.bucketAccess? i = some (b, f) := by
  refine List.foldlRecOn (motive := fun s => s.1.bucketAccess? i = some (b, f)) e.toList
    dropParams (b := (g, [])) ha fun s hs q _ => ?_
  rcases dropParams_cases s q with he | ⟨name, params, body, hk, he⟩
  · rw [he, hs]
  · obtain ⟨o, p, hki, -, -⟩ := bucketAccess?_eq_some.mp hs
    have hqi : q.2 ≠ i := by
      intro heq
      rw [heq, hki] at hk
      cases hk
    rw [he, bucketAccess?_replace hs hqi]
    intro n hn
    rw [hk] at hn
    cases hn

/-- Flattening at one node either makes this access flat or leaves it an access. -/
theorem bucketAccess?_flattenBucket {s : Graph × BucketFields} {j : Id}
    (hs : s.1.bucketAccess? i = some (b, f)) :
    if j = i then (flattenBucket s j).1.kind i = .ident (b.flatName f)
    else (flattenBucket s j).1.bucketAccess? i = some (b, f) := by
  rcases flattenBucket_cases s j with ⟨he, hn⟩ | ⟨b', f', hj, he⟩
  · split_ifs with hji
    · rw [hji, hs] at hn
      cases hn
    · rw [he, hs]
  · obtain ⟨o, p, hk, -, -⟩ := bucketAccess?_eq_some.mp hj
    have hlt : j < s.1.size := lt_size_of_kind (by rw [hk]; nofun)
    split_ifs with hji
    · subst hji
      rw [hs] at hj
      cases hj
      rw [he, kind_replace_self _ _ hlt]
    · rw [he, bucketAccess?_replace hs hji]
      intro n hn
      rw [hk] at hn
      cases hn

theorem kind_flattenBucket_ident {s : Graph × BucketFields} {j : Id} {n : String}
    (hi : s.1.kind i = .ident n) : (flattenBucket s j).1.kind i = .ident n := by
  rcases flattenBucket_cases s j with ⟨he, -⟩ | ⟨b, f, hj, he⟩
  · rw [he, hi]
  · obtain ⟨o, p, hk, -, -⟩ := bucketAccess?_eq_some.mp hj
    have hji : j ≠ i := by
      rintro rfl
      rw [hi] at hk
      cases hk
    rw [he, kind_replace_of_ne _ _ hji, hi]

theorem kind_flattenBuckets (hi : i ∈ g.live) (ha : g.bucketAccess? i = some (b, f)) :
    g.flattenBuckets.1.kind i = .ident (b.flatName f) := by
  refine foldl_reaches
    (P := fun s : Graph × BucketFields =>
      s.1.bucketAccess? i = some (b, f) ∨ s.1.kind i = .ident (b.flatName f))
    (Q := fun s => s.1.kind i = .ident (b.flatName f)) hi ?_ ?_
    (fun s j _ _ hs => kind_flattenBucket_ident hs) (.inl ha)
  · rintro s j - (hs | hs)
    · have hstep := bucketAccess?_flattenBucket (j := j) hs
      split_ifs at hstep
      · exact .inr hstep
      · exact .inl hstep
    · exact .inr (kind_flattenBucket_ident hs)
  · rintro s (hs | hs)
    · have hstep := bucketAccess?_flattenBucket (j := i) hs
      rwa [if_pos rfl] at hstep
    · exact kind_flattenBucket_ident hs

/-- **An access that is part of the flat program is the identifier with its flat name.** -/
theorem kind_flat_access (h : g.IsTree) (e : EntryPoints) (hi : i ∈ (g.flat e).live)
    (ha : g.Access i b f) : (g.flat e).kind i = .ident (b.flatName f) := by
  have hlive : i ∈ g.live := (changed_flat h e).live_of_live Kind.Flattened.sublist hi
  have hdirect := bucketAccess?_dropEntryParams e (bucketAccess?_stripReceivers h hlive ha)
  rw [flat_eq h e] at hi ⊢
  exact kind_flattenBuckets
    ((changed_flattenBuckets _).live_of_live Kind.Flattened.sublist hi) hdirect

/-! ## Inputs -/

theorem mem_used_flattenBuckets (hi : i ∈ g.live) (ha : g.bucketAccess? i = some (b, f)) :
    (b, f) ∈ g.flattenBuckets.2.used := by
  have used : ∀ {s : Graph × BucketFields} {j : Id}, (b, f) ∈ s.2.used →
      (b, f) ∈ (flattenBucket s j).2.used := by
    intro s j hs
    unfold flattenBucket
    dsimp only
    split
    · exact BucketFields.mem_used_insert.mpr (.inl hs)
    · exact hs
  have noted : ∀ {s : Graph × BucketFields}, s.1.bucketAccess? i = some (b, f) →
      (b, f) ∈ (flattenBucket s i).2.used := by
    intro s hs
    unfold flattenBucket
    dsimp only
    rw [hs]
    exact BucketFields.mem_used_insert.mpr (.inr rfl)
  refine foldl_reaches
    (P := fun s : Graph × BucketFields =>
      s.1.bucketAccess? i = some (b, f) ∨ (b, f) ∈ s.2.used)
    (Q := fun s => (b, f) ∈ s.2.used) hi ?_ ?_ (fun s j _ _ hs => used hs) (.inl ha)
  · rintro s j - (hs | hs)
    · have hstep := bucketAccess?_flattenBucket (j := j) hs
      split_ifs at hstep with hji
      · exact .inr (hji ▸ noted hs)
      · exact .inl hstep
    · exact .inr (used hs)
  · rintro s (hs | hs)
    · exact noted hs
    · exact used hs

/-- **The input of an access that is part of the flat program is noted.** -/
theorem mem_fields_flatten (h : g.IsTree) (e : EntryPoints) (hi : i ∈ (g.flat e).live)
    (ha : g.Access i b f) : (b, f) ∈ (flatten g e).fields.used := by
  have hlive : i ∈ g.live := (changed_flat h e).live_of_live Kind.Flattened.sublist hi
  rw [flat_eq h e] at hi
  exact mem_used_flattenBuckets
    ((changed_flattenBuckets _).live_of_live Kind.Flattened.sublist hi)
    (bucketAccess?_dropEntryParams e (bucketAccess?_stripReceivers h hlive ha))

end Graph

end ShaderScript
