import Mathlib.Data.List.GetD
import ShaderScript.Proofs.Graph.Subtree
import ShaderScript.Proofs.Renumber.Walk

/-!
# The program alone

Numbering the nodes of a program in pre-order, and leaving all others out, gives a graph with no
node beside the program. Every graph with the same program holds a copy of it.

* `Graph.compact`: the program alone, with `Graph.position` for the numbers in it.
* `Graph.whole_compact`: it is a tree with no node beside it.
* `Graph.Alike`: two graphs have the same program under some numbering.
* **`Graph.Alike.copy_unpack`**: what is alike holds a copy of the same compact graph.
-/

namespace ShaderScript

namespace Graph

variable {g x : Graph}

/-! ## Compact graphs -/

/-- The place of a node in pre-order. -/
def position (g : Graph) (i : Id) : Id := g.live.idxOf i

/-- The program alone, numbered in pre-order. -/
def compact (g : Graph) : Graph where
  nodes := (g.live.map fun i =>
    { g.node i with
      kind := (g.kind i).map g.position, parent := (g.parent? i).map g.position }).toArray
  root := g.position g.root

theorem size_compact : g.compact.size = g.live.length := by
  simp [compact, size]

theorem position_lt {i : Id} (hi : i ∈ g.live) : g.position i < g.live.length :=
  List.idxOf_lt_length_of_mem hi

theorem getD_position {i : Id} (hi : i ∈ g.live) : g.live.getD (g.position i) 0 = i := by
  rw [List.getD_eq_getElem _ _ (position_lt hi)]
  exact List.getElem_idxOf _

theorem position_inj {i j : Id} (hi : i ∈ g.live) (hj : j ∈ g.live)
    (he : g.position i = g.position j) : i = j := by
  rw [← getD_position hi, he, getD_position hj]

theorem position_getD (h : g.IsTree) {n : Nat} (hn : n < g.live.length) :
    g.position (g.live.getD n 0) = n := by
  rw [List.getD_eq_getElem _ _ hn]
  exact h.nodup_live.idxOf_getElem n hn

theorem getD_live {n : Nat} (hn : n < g.live.length) : g.live.getD n 0 ∈ g.live := by
  rw [List.getD_eq_getElem _ _ hn]
  exact List.getElem_mem hn

theorem node_compact {n : Nat} (hn : n < g.live.length) :
    g.compact.node n =
      { g.node (g.live.getD n 0) with
        kind := (g.kind (g.live.getD n 0)).map g.position
        parent := (g.parent? (g.live.getD n 0)).map g.position } := by
  rw [List.getD_eq_getElem _ _ hn]
  unfold node compact
  simp [List.getElem?_eq_getElem hn, node]

theorem children_compact {i : Id} (hi : i ∈ g.live) :
    g.compact.children (g.position i) = (g.children i).map g.position := by
  unfold children kind
  rw [node_compact (position_lt hi), getD_position hi, Kind.children_map]
  rfl

theorem parent?_compact {i : Id} (hi : i ∈ g.live) :
    g.compact.parent? (g.position i) = (g.parent? i).map g.position := by
  unfold parent?
  rw [node_compact (position_lt hi), getD_position hi]
  rfl

section Trees

variable (h : g.IsTree)

include h

theorem below_compact {i j : Id} {d : Nat} (hi : i ∈ g.live) (hd : g.Below i d j) :
    g.compact.Below (g.position i) d (g.position j) := by
  induction hd with
  | refl => exact .refl
  | step hj hc ih =>
    refine .step ih ?_
    rw [children_compact (h.live_of_below hi hj)]
    exact List.mem_map_of_mem hc

theorem exists_position {n c : Id} (hc : c ∈ g.compact.children n) :
    ∃ i ∈ g.live, g.position i = n := by
  have hn : n < g.live.length := by
    rw [← size_compact]
    exact lt_size_of_mem_children hc
  exact ⟨_, getD_live hn, position_getD h hn⟩

theorem isTree_compact : g.compact.IsTree := by
  have hroot := h.root_live
  refine ⟨?_, fun n _ c hc => ?_, fun n _ => ?_, ?_, fun n _ c hc => ?_⟩
  · rw [size_compact]
    exact position_lt hroot
  · obtain ⟨i, hi, rfl⟩ := exists_position h hc
    rw [children_compact hi] at hc
    obtain ⟨c', hc', rfl⟩ := List.mem_map.mp hc
    rw [size_compact]
    exact position_lt (h.child_live hi hc')
  · cases hcs : g.compact.children n with
    | nil => exact List.nodup_nil
    | cons c cs =>
      obtain ⟨i, hi, rfl⟩ := exists_position h (hcs ▸ List.mem_cons_self)
      rw [← hcs, children_compact hi]
      refine (h.children_nodup i hi).map_on fun a ha b hb hab => ?_
      exact position_inj (h.child_live hi ha) (h.child_live hi hb) hab
  · exact (parent?_compact hroot).trans (by rw [h.parent_root]; rfl)
  · obtain ⟨i, hi, rfl⟩ := exists_position h hc
    rw [children_compact hi] at hc
    obtain ⟨c', hc', rfl⟩ := List.mem_map.mp hc
    rw [parent?_compact (h.child_live hi hc'), h.parent_child i hi c' hc']
    rfl

/-- **The program alone is a tree with no node beside it.** -/
theorem whole_compact : g.compact.Whole := by
  refine ⟨isTree_compact h, fun n hn => ?_⟩
  rw [size_compact] at hn
  obtain ⟨d, hd⟩ := h.mem_live_iff.mp (getD_live hn)
  have hbelow := below_compact h h.root_live hd
  rw [position_getD h hn] at hbelow
  exact (isTree_compact h).mem_live_iff.mpr ⟨d, hbelow⟩

end Trees

/-! ## Graphs with the same program -/

/-- The program of `x` is that of `g`, node `i` under the number `f i`. -/
structure Alike (linked : Prop) (f : Id → Id) (g x : Graph) : Prop where
  inj : ∀ i ∈ g.live, ∀ j ∈ g.live, f i = f j → i = j
  root : x.root = f g.root
  lt : ∀ i ∈ g.live, f i < x.size
  node : ∀ i ∈ g.live, (g.node i).Copy linked f (x.node (f i))

namespace Alike

variable {linked : Prop} {f : Id → Id}

theorem refl (h : g.IsTree) : Alike linked id g g :=
  ⟨fun _ _ _ _ he => he, rfl, fun _ hi => h.lt_size hi, fun i _ => .refl (g.node i)⟩

end Alike

/-! ### Numbers in the other graph

What both graphs allocate next must correspond too, so the numbers that the program alone does not
use stand for the ones after the end of the other graph. -/

/-- The number in `x` of a node of the program of `g` alone, if `f` has those of the program. -/
def unpack (g x : Graph) (f : Id → Id) (n : Id) : Id :=
  if n < g.live.length then f (g.live.getD n 0) else x.size + (n - g.live.length)

theorem unpack_of_lt {f : Id → Id} {n : Id} (hn : n < g.live.length) :
    g.unpack x f n = f (g.live.getD n 0) := if_pos hn

theorem unpack_add (f : Id → Id) (n : Id) : g.unpack x f (g.live.length + n) = x.size + n := by
  refine (if_neg (Nat.not_lt.mpr (Nat.le_add_right _ _))).trans ?_
  rw [Nat.add_sub_cancel_left]

theorem unpack_position {f : Id → Id} {i : Id} (hi : i ∈ g.live) :
    g.unpack x f (g.position i) = f i := by
  rw [unpack_of_lt (position_lt hi), getD_position hi]

namespace Alike

variable {linked : Prop} {f : Id → Id} (ha : Alike linked f g x)

include ha

theorem unpack_lt {n : Id} (hn : n < g.live.length) : g.unpack x f n < x.size := by
  rw [unpack_of_lt hn]
  exact ha.lt _ (getD_live hn)

/-- A number of the program is never taken by one after the end. -/
theorem unpack_ne {n m : Id} (hn : n < g.live.length) (hm : g.live.length ≤ m) :
    g.unpack x f n ≠ g.unpack x f m := by
  obtain ⟨m', rfl⟩ := Nat.exists_eq_add_of_le hm
  rw [unpack_add]
  exact ((ha.unpack_lt hn).trans_le (Nat.le_add_right _ _)).ne

theorem unpack_injective (h : g.IsTree) : Function.Injective (g.unpack x f) := by
  intro n m he
  rcases Nat.lt_or_ge n g.live.length with hn | hn <;>
    rcases Nat.lt_or_ge m g.live.length with hm | hm
  · rw [unpack_of_lt hn, unpack_of_lt hm] at he
    rw [← position_getD h hn, ha.inj _ (getD_live hn) _ (getD_live hm) he, position_getD h hm]
  · exact absurd he (ha.unpack_ne hn hm)
  · exact absurd he.symm (ha.unpack_ne hm hn)
  · obtain ⟨n', rfl⟩ := Nat.exists_eq_add_of_le hn
    obtain ⟨m', rfl⟩ := Nat.exists_eq_add_of_le hm
    rw [unpack_add, unpack_add] at he
    rw [Nat.add_left_cancel he]

/-- A node of the program with its numbers changed twice, to those of the program alone and on. -/
theorem node_unpack (h : g.IsTree) {n : Id} (hn : n < g.live.length) :
    (g.compact.node n).Copy linked (g.unpack x f) (x.node (g.unpack x f n)) := by
  have hi := getD_live hn
  have hnode := ha.node _ hi
  rw [node_compact hn, unpack_of_lt hn]
  generalize g.live.getD n 0 = i at hi hnode
  refine ⟨?_, fun hl => ?_, hnode.ty, hnode.guessed, hnode.topIndex, hnode.hint, hnode.out⟩
  · rw [hnode.kind]
    dsimp only
    rw [Kind.map_map]
    exact Kind.map_congr fun c hc => (unpack_position (h.child_live hi hc)).symm
  · rw [hnode.parent hl]
    dsimp only
    rw [Option.map_map]
    cases hp : g.parent? i with
    | none =>
      rw [show (g.node i).parent = none from hp]
      rfl
    | some p =>
      rw [show (g.node i).parent = some p from hp]
      exact congrArg some (unpack_position (h.parent_live hi hp).1).symm

/-- **A graph with the same program holds a copy of the program alone.** -/
theorem copy_unpack (h : g.IsTree) : Copy linked (g.unpack x f) g.compact x := by
  refine ⟨ha.unpack_injective h, ?_, fun n => ?_, fun n hn => ?_, fun n => ?_⟩
  · exact ha.root.trans (unpack_position h.root_live).symm
  · rw [size_compact, unpack_add]
  · rw [size_compact] at hn
    exact ha.unpack_lt hn
  · rcases Nat.lt_or_ge n g.live.length with hn | hn
    · exact ha.node_unpack h hn
    · obtain ⟨m, rfl⟩ := Nat.exists_eq_add_of_le hn
      rw [unpack_add, node_of_size_le (Nat.le_add_right _ _),
        node_of_size_le (by rw [size_compact]; exact hn)]
      exact .new (.program []) none

end Alike

/-- The programs of a tree and of a tree that holds a copy of it are alike, parents included. -/
theorem Copy.alike {f : Id → Id} (r : Copy False f g x) (hg : g.IsTree) (hx : x.IsTree) :
    Alike True f g x := by
  refine ⟨fun i _ j _ he => r.inj he, r.root, fun i hi => r.lt i (hg.lt_size hi), fun i hi => ?_⟩
  refine { r.node i with parent := fun _ => ?_ }
  change x.parent? (f i) = (g.parent? i).map f
  obtain ⟨d, hd⟩ := hg.mem_live_iff.mp hi
  cases hd with
  | refl =>
    rw [← r.root, hx.parent_root, hg.parent_root]
    rfl
  | @step d p _ hp hc =>
    have hpl := hg.mem_live_iff.mpr ⟨d, hp⟩
    have hpx : f p ∈ x.live := by
      rw [r.live (hg.bounded hg.root_live)]
      exact List.mem_map_of_mem hpl
    rw [hg.parent_child p hpl i hc, hx.parent_child (f p) hpx (f i)]
    · rfl
    · rw [r.children]
      exact List.mem_map_of_mem hc

end Graph

end ShaderScript
