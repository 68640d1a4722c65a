import ShaderScript.Proofs.Flatten.Marks
import ShaderScript.Proofs.Graph.Link

/-!
# Flattening gives no types

* `Graph.Untyped`: no node has a type.
* `Graph.SameTypes`: the nodes have the types that they had, with one lemma for each edit.
* **`sameTypes_flatten`**: flattening neither gives types nor takes them.
-/

namespace ShaderScript

/-- The type of a node, and whether it is a default. -/
def Node.typing (n : Node) : Option Ty × Bool := (n.ty, n.guessed)

namespace Graph

/-- No node has a type. -/
def Untyped (g : Graph) : Prop := ∀ i, (g.node i).typing = (none, false)

/-- The nodes have the types that they had. -/
def SameTypes (g x : Graph) : Prop := ∀ i, (x.node i).typing = (g.node i).typing

namespace SameTypes

variable {g x y : Graph}

theorem refl (g : Graph) : SameTypes g g := fun _ => rfl

theorem trans (h : SameTypes g x) (h' : SameTypes x y) : SameTypes g y := fun i =>
  (h' i).trans (h i)

theorem modify (x : Graph) (i : Id) {f : Node → Node} (hf : ∀ n, (f n).typing = n.typing) :
    SameTypes x (x.modify i f) := fun j => node_modify_congr x f Node.typing hf i j

theorem replace (x : Graph) (i : Id) (k : Kind) : SameTypes x (x.replace i k) :=
  modify x i fun _ => rfl

theorem link (x : Graph) : SameTypes x x.link := fun i => part_link Node.typing (fun _ _ => rfl) x i

theorem foldl {α σ : Type} (graph : σ → Graph) {f : σ → α → σ}
    (hf : ∀ t a, SameTypes (graph t) (graph (f t a))) (xs : List α) (s : σ) :
    SameTypes (graph s) (graph (xs.foldl f s)) :=
  List.foldlRecOn (motive := fun t => SameTypes (graph s) (graph t)) xs f (.refl _)
    fun t ht a _ => ht.trans (hf t a)

theorem renameAll (x : Graph) (is : List Id) (name : String) :
    SameTypes x (x.renameAll is name) := by
  refine foldl id (fun y i => ?_) is x
  change SameTypes y (y.rename i name)
  unfold rename
  split
  · exact .replace y i _
  · exact .refl y

end SameTypes

variable (g : Graph)

theorem sameTypes_flat (e : EntryPoints) : SameTypes g (g.flat e) := by
  have hstrip : SameTypes g g.stripReceivers := by
    refine SameTypes.foldl id (fun x i => ?_) g.live g
    change SameTypes x (x.stripReceiver i)
    rcases stripReceiver_cases x i with he | ⟨_, _, _, -, -, -, he⟩ <;> rw [he]
    · exact .refl x
    · exact .replace x i _
  have hdrop : SameTypes g.stripReceivers (g.stripReceivers.dropEntryParams e).1 := by
    refine SameTypes.foldl Prod.fst (fun s p => ?_) e.toList (g.stripReceivers, [])
    rcases dropParams_cases s p with he | ⟨_, _, _, -, he⟩ <;> rw [he]
    · exact .refl s.1
    · exact .replace s.1 _ _
  have hflatten : ∀ x : Graph, SameTypes x x.flattenBuckets.1 := by
    intro x
    refine SameTypes.foldl Prod.fst (fun s i => ?_) x.live (x, ({} : BucketFields))
    rcases flattenBucket_cases s i with ⟨he, -⟩ | ⟨_, _, -, he⟩ <;> rw [he]
    · exact .refl s.1
    · exact .replace s.1 _ _
  exact hstrip.trans (hdrop.trans ((hflatten _).trans (.link _)))

theorem sameTypes_marked : SameTypes g g.marked := by
  have hout : SameTypes g (g.markOutParams (Scopes.resolve g)) := by
    refine SameTypes.foldl id (fun x f => ?_) g.functions g
    refine SameTypes.foldl id (fun y p => ?_) (x.outParams f) x
    have hflag : SameTypes y (y.modify p ({ · with out := true })) := .modify y p fun _ => rfl
    exact hflag.trans (.renameAll _ _ _)
  refine hout.trans (SameTypes.foldl id (fun x i => ?_) _ _)
  change SameTypes x (x.markLocal (Scopes.resolve g) i)
  unfold markLocal
  split
  case h_2 => exact .refl x
  case h_1 =>
    split
    · exact .renameAll x _ _
    · exact .refl x

end Graph

open Graph

/-- **Flattening neither gives types nor takes them.** -/
theorem sameTypes_flatten (g : Graph) (e : EntryPoints) : SameTypes g (flatten g e).graph := by
  rw [flatten_graph]
  exact (sameTypes_flat g e).trans (sameTypes_marked _)

theorem EntryPoints.sameTypes_attachHints (e : EntryPoints) (g : Graph) :
    SameTypes g (e.attachHints g) := by
  refine SameTypes.foldl id (fun x p => ?_) e.toList g
  change SameTypes x (attachHint x p)
  unfold attachHint
  split
  · exact .modify x _ fun _ => rfl
  · exact .refl x

end ShaderScript
