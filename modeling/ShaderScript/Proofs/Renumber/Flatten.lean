import ShaderScript.Proofs.Flatten.Accesses
import ShaderScript.Proofs.Renumber.Compact

/-!
# Flattening a copy

Flattening reads names and replaces nodes, in the order of the program, so it does to a copy what it
does to the original. Parents do not matter until the end, where linking sets them.

* `EntryPoints.map`: entry points under other numbers.
* `Graph.Copy.locate`: the entry points of a copy.
* `Graph.Copy.stripReceiver`, `Graph.Copy.dropParams`, `Graph.Copy.flattenBucket`: one step of each
  pass.
* **`Graph.Copy.flat`**: the flat programs, and the inputs they use.
-/

namespace ShaderScript

/-- Entry points under other numbers. -/
def EntryPoints.map (f : Id → Id) (e : EntryPoints) : EntryPoints where
  vertexPosition := f e.vertexPosition
  fragmentColor := f e.fragmentColor
  pointSize := e.pointSize.map f

theorem EntryPoints.toList_map (f : Id → Id) (e : EntryPoints) :
    (e.map f).toList = e.toList.map (Prod.map id f) := by
  unfold toList EntryPoints.map
  cases e.pointSize <;> rfl

namespace Graph

variable {linked : Prop} {f : Id → Id} {k g : Graph}

namespace Copy

theorem locate (r : Copy linked f k g) :
    EntryPoints.locate g = (EntryPoints.locate k).map (EntryPoints.map f) := by
  unfold EntryPoints.locate
  simp only [r.findFunction?]
  cases k.findFunction? EntryPoint.vertexPosition.name with
  | none => rfl
  | some v => cases k.findFunction? EntryPoint.fragmentColor.name <;> rfl

/-! ## One step -/

theorem stripReceiver (r : Copy linked f k g) (i : Id) :
    Copy linked f (k.stripReceiver i) (g.stripReceiver (f i)) := by
  unfold Graph.stripReceiver
  rw [r.kind]
  cases k.kind i with
  | field object property =>
    simp only [Kind.map, r.kind, r.identName?]
    cases k.kind object with
    | this =>
      cases k.identName? property with
      | some name => exact r.replace i (.ident name)
      | none => exact r
    | _ => exact r
  | _ => exact r

theorem dropParams {s t : Graph × List Note} (r : Copy linked f s.1 t.1) (p : EntryPoint × Id) :
    Copy linked f (Graph.dropParams s p).1 (Graph.dropParams t (Prod.map id f p)).1 := by
  unfold Graph.dropParams
  simp only [Prod.map_snd, r.kind]
  cases s.1.kind p.2 with
  | function name params body =>
    cases params with
    | nil => exact r
    | cons q params => exact r.replace p.2 (.function name [] body)
  | _ => exact r

theorem bucketAccess? (r : Copy linked f k g) (i : Id) :
    g.bucketAccess? (f i) = k.bucketAccess? i := by
  unfold Graph.bucketAccess?
  rw [r.kind]
  cases k.kind i with
  | field object property => simp only [Kind.map, r.identName?]
  | _ => rfl

theorem flattenBucket {s t : Graph × BucketFields} (r : Copy linked f s.1 t.1) (hf : s.2 = t.2)
    (i : Id) : Copy linked f (Graph.flattenBucket s i).1 (Graph.flattenBucket t (f i)).1 ∧
      (Graph.flattenBucket s i).2 = (Graph.flattenBucket t (f i)).2 := by
  unfold Graph.flattenBucket
  simp only [r.bucketAccess?, hf]
  cases s.1.bucketAccess? i with
  | none => exact ⟨r, rfl⟩
  | some a => exact ⟨r.replace i (.ident (a.1.flatName a.2)), rfl⟩

/-! ## The passes -/

theorem stripReceivers (r : Copy linked f k g) (hk : k.IsTree) :
    Copy linked f k.stripReceivers g.stripReceivers := by
  unfold Graph.stripReceivers
  rw [r.live (hk.bounded hk.root_live)]
  exact foldl f r fun _ _ i r => r.stripReceiver i

theorem dropEntryParams (r : Copy linked f k g) (e : EntryPoints) :
    Copy linked f (k.dropEntryParams e).1 (g.dropEntryParams (e.map f)).1 := by
  unfold Graph.dropEntryParams
  rw [EntryPoints.toList_map]
  exact foldl (R := fun s t : Graph × List Note => Copy linked f s.1 t.1) (Prod.map id f) r
    fun _ _ p r => r.dropParams p

theorem flattenBuckets (r : Copy linked f k g) (hk : k.IsTree) :
    Copy linked f k.flattenBuckets.1 g.flattenBuckets.1 ∧
      k.flattenBuckets.2 = g.flattenBuckets.2 := by
  unfold Graph.flattenBuckets
  rw [r.live (hk.bounded hk.root_live)]
  exact foldl (R := fun s t : Graph × BucketFields => Copy linked f s.1 t.1 ∧ s.2 = t.2) f ⟨r, rfl⟩
    fun _ _ i ⟨r, hf⟩ => r.flattenBucket hf i

/-- **The flat program of a copy holds a copy of the flat program**, and uses the same inputs. -/
theorem flat (r : Copy False f k g) (hk : k.IsTree) (e : EntryPoints) :
    Copy False f (k.flat e) (g.flat (e.map f)) ∧
      (flatten k e).fields = (flatten g (e.map f)).fields := by
  have hstrip := (changed_stripReceivers k).isTree Kind.Flattened.sublist hk
  have hdrop := (changed_dropEntryParams k.stripReceivers e).isTree Kind.Flattened.sublist hstrip
  obtain ⟨hgraph, hfields⟩ := ((r.stripReceivers hk).dropEntryParams e).flattenBuckets hdrop
  exact ⟨hgraph.link_unlinked, hfields⟩

end Copy

theorem Unshared.isTree_flat (h : g.Unshared) (e : EntryPoints) : (g.flat e).IsTree := by
  have hchanged := ((changed_stripReceivers g).trans .trans
    (changed_dropEntryParams _ e)).trans .trans (changed_flattenBuckets _)
  exact (hchanged.unshared Kind.Flattened.sublist h).isTree_link

end Graph

end ShaderScript
