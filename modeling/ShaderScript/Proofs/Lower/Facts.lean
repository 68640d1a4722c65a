import ShaderScript.Call.Lower
import ShaderScript.Discard
import ShaderScript.Proofs.Graph.Link

/-!
# Lowering keeps facts

Lowering makes nodes something else and adds others. The types and other facts that are attached to
the nodes of the program are not its business.

* `Node.facts`: what is attached to a node.
* `Graph.Extends`: all nodes are still there with their facts, and there may be more, with one lemma
  for each edit.
* **`Graph.extends_lowerDiscards`**, **`Graph.extends_lowerCalls`**: the two passes.
-/

namespace ShaderScript

/-- What is attached to a node, apart from what it is and where it stands. -/
def Node.facts (n : Node) : Node := { n with kind := .this, parent := none }

namespace Graph

/-- All nodes of `g` are nodes of `x` with the same facts, whatever they have become. -/
structure Extends (g x : Graph) : Prop where
  size : g.size ≤ x.size
  facts : ∀ i < g.size, (x.node i).facts = (g.node i).facts

namespace Extends

variable {g x y : Graph}

theorem refl (g : Graph) : Extends g g := ⟨le_rfl, fun _ _ => rfl⟩

theorem trans (h : Extends g x) (h' : Extends x y) : Extends g y :=
  ⟨h.size.trans h'.size, fun i hi => (h'.facts i (hi.trans_le h.size)).trans (h.facts i hi)⟩

theorem ty? (h : Extends g x) {i : Id} (hi : i < g.size) : x.ty? i = g.ty? i := by
  have hty : (x.node i).facts.ty = (g.node i).facts.ty := congrArg Node.ty (h.facts i hi)
  exact hty

theorem push (x : Graph) (n : Node) : Extends x { x with nodes := x.nodes.push n } := by
  refine ⟨?_, fun i hi => congrArg Node.facts ?_⟩
  · unfold Graph.size
    rw [Array.size_push]
    exact Nat.le_succ _
  · have hi' : i < x.nodes.size := hi
    simp [node, Array.getElem?_push, Nat.ne_of_lt hi']

theorem alloc (x : Graph) (k : Kind) : Extends x (x.alloc k).2 := push x _

theorem allocTyped (x : Graph) (k : Kind) (t : Option Ty) : Extends x (x.allocTyped k t).2 :=
  push x _

theorem replace (x : Graph) (i : Id) (k : Kind) : Extends x (x.replace i k) := by
  refine ⟨(size_modify _ _ _).ge, fun j _ => ?_⟩
  refine node_modify_congr x _ Node.facts ?_ i j
  exact fun _ => rfl

theorem link (x : Graph) : Extends x x.link :=
  ⟨(sameShape_link x).size.ge, fun j _ => part_link Node.facts (fun _ _ => rfl) x j⟩

theorem foldl {α : Type} {f : Graph → α → Graph} (hf : ∀ y a, Extends y (f y a)) (xs : List α)
    (x : Graph) : Extends x (xs.foldl f x) :=
  List.foldlRecOn (motive := Extends x) xs f (.refl x) fun y hy a _ => hy.trans (hf y a)

end Extends

/-! ## Returns -/

theorem extends_allocZeros (n : Nat) (x : Graph) : Extends x (allocZeros n x).2 := by
  induction n generalizing x with
  | zero => exact .refl x
  | succ n ih => exact (Extends.allocTyped x _ _).trans (ih _)

theorem extends_allocZeroOf (x : Graph) (t : Ty) (width : Nat) :
    Extends x (x.allocZeroOf t width).2 := by
  unfold allocZeroOf
  split_ifs
  · exact .allocTyped x _ _
  · exact ((Extends.allocTyped x _ _).trans (extends_allocZeros width _)).trans (.allocTyped _ _ _)

theorem extends_lowerDiscard (t : Ty) (width : Nat) (x : Graph) (ret : Id) :
    Extends x (lowerDiscard t width x ret) := by
  unfold lowerDiscard
  split
  case h_2 => exact .refl x
  case h_1 =>
    have hadded := (extends_allocZeroOf x t width).trans (.alloc _ .discard)
    dsimp only
    split
    · exact hadded.trans ((Extends.replace _ _ _).trans (.replace _ _ _))
    · exact hadded.trans ((Extends.alloc _ _).trans (.replace _ _ _))

/-- **Lowering returns keeps facts.** -/
theorem extends_lowerDiscards (x : Graph) (f : Id) : Extends x (x.lowerDiscards f) := by
  unfold lowerDiscards
  split
  case h_2 => exact .refl x
  case h_1 =>
    dsimp only
    split
    case h_2 => exact .refl x
    case h_1 => exact (Extends.foldl (extends_lowerDiscard _ _) _ x).trans (.link _)

/-! ## Calls -/

theorem extends_lowerOut (x : Graph) (call out : Id) (plain : Kind) :
    Extends x (x.lowerOut call out plain) := by
  unfold lowerOut
  split_ifs
  · exact (Extends.allocTyped x _ _).trans (.replace _ _ _)
  · exact .replace x _ _

theorem extends_lowerAs (x : Graph) (call : Id) (form : Known.Form) (args : List Id) :
    Extends x (x.lowerAs call form args) := by
  unfold lowerAs
  split
  case h_1 => exact (Extends.allocTyped x _ _).trans (.replace _ _ _)
  case h_6 | h_7 => exact extends_lowerOut x _ _ _
  case h_8 => exact (Extends.allocTyped x _ _).trans (extends_lowerOut _ _ _ _)
  case h_10 => exact .refl x
  all_goals exact .replace x _ _

theorem extends_lowerTarget (x : Graph) (p : Id × Target) : Extends x (x.lowerTarget p) := by
  unfold lowerTarget lowerCall
  split
  case h_2 => exact .refl x
  case h_1 =>
    split
    case h_2 => exact .refl x
    case h_1 =>
      split_ifs
      · exact extends_lowerAs x _ _ _
      · exact .refl x

/-- **Lowering calls keeps facts.** -/
theorem extends_lowerCalls (x : Graph) (calls : CallTable) : Extends x (x.lowerCalls calls) :=
  (Extends.foldl extends_lowerTarget calls.targets x).trans (.link _)

end Graph

end ShaderScript
