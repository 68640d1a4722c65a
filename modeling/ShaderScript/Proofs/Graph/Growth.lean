import ShaderScript.Proofs.Graph.Link

/-!
# Programs that grow

Passes that write one construct as another put new nodes in the place of old ones. Whatever a pass
puts in the place of a node belongs to that node, and holds what the node held or new nodes.

* `Graph.graft`: puts a node and some new ones below it in the place of a node.
* `Fits`: what is put there holds each part at most once.
* `Graph.Grown`: one graph comes from another by such steps, and each node has an owner among the
  nodes that were there at the start.
* `Graph.Grown.graft`: one step.
* `Graph.Grown.below_owner`, `Graph.Grown.below_of_below`: what lies below what afterwards.
* **`Graph.Grown.unshared`**: no node gets two places.
-/

namespace ShaderScript

/-- Kinds that are to take the place of a node with the given parts, the first for the node itself
and the others for new nodes from a number on: each part and each new node is held at most once,
and nothing else is held. -/
structure Fits (parts : List Id) (first : Nat) (kinds : List Kind) : Prop where
  child : ∀ k ∈ kinds, ∀ c ∈ k.children, c ∈ parts ∨ first ≤ c ∧ c + 1 < first + kinds.length
  nodup : parts.Nodup → (∀ c ∈ parts, c < first) → (kinds.flatMap Kind.children).Nodup

/-- What holds new nodes and some of the parts of a node fits in its place. -/
theorem Fits.of_perm {parts : List Id} {first : Nat} {kinds : List Kind} (new kept : List Id)
    (h : (kinds.flatMap Kind.children).Perm (new ++ kept)) (hkept : kept.Sublist parts)
    (hnew : new.Nodup) (hrange : ∀ c : Nat, c ∈ new → first ≤ c ∧ c + 1 < first + kinds.length) :
    Fits parts first kinds where
  child k hk c hc := by
    have hmem : c ∈ new ++ kept := h.mem_iff.mp (List.mem_flatMap.mpr ⟨k, hk, hc⟩)
    rcases List.mem_append.mp hmem with hc | hc
    · exact .inr (hrange c hc)
    · exact .inl (hkept.mem hc)
  nodup hn hlt := by
    refine h.nodup_iff.mpr (List.nodup_append.mpr ⟨hnew, hn.sublist hkept, ?_⟩)
    rintro c hc _ hc' rfl
    exact absurd (hlt c (hkept.mem hc')) (not_lt.mpr (hrange c hc).1)

theorem Fits.of_sublist {parts : List Id} {first : Nat} {k : Kind}
    (h : k.children.Sublist parts) : Fits parts first [k] := by
  refine .of_perm [] k.children ?_ h List.nodup_nil (fun c hc => by cases hc)
  rw [List.flatMap_singleton]
  rfl

namespace Graph

variable {g x : Graph} {site i j : Id} {ns : List Node} {k : Kind}

/-- Adds loose nodes. -/
def add (x : Graph) (ns : List Node) : Graph := { x with nodes := x.nodes ++ ns.toArray }

/-- Adds nodes and puts a kind in the place of a node. -/
def graft (x : Graph) (ns : List Node) (site : Id) (k : Kind) : Graph := (x.add ns).replace site k

@[simp] theorem size_add (x : Graph) (ns : List Node) : (x.add ns).size = x.size + ns.length := by
  simp [add, size]

@[simp] theorem root_add (x : Graph) (ns : List Node) : (x.add ns).root = x.root := rfl

theorem add_nil (x : Graph) : x.add [] = x := by
  simp [add]

theorem add_add (x : Graph) (ns ms : List Node) : (x.add ns).add ms = x.add (ns ++ ms) := by
  simp [add]

theorem alloc_eq (x : Graph) (k : Kind) : x.alloc k = (x.size, x.add [{ kind := k }]) := by
  simp [alloc, add]

theorem allocTyped_eq (x : Graph) (k : Kind) (t : Option Ty) :
    x.allocTyped k t = (x.size, x.add [{ kind := k, ty := t }]) := by
  simp [allocTyped, add]

theorem graft_nil (x : Graph) (site : Id) (k : Kind) : x.graft [] site k = x.replace site k := by
  rw [graft, add_nil]

theorem graft_add (x : Graph) (ns ms : List Node) (site : Id) (k : Kind) :
    (x.add ns).graft ms site k = x.graft (ns ++ ms) site k := by
  rw [graft, add_add, graft]

theorem replace_comm {l : Kind} (x : Graph) (hij : i ≠ j) :
    (x.replace i k).replace j l = (x.replace j l).replace i k := by
  unfold replace modify
  congr 1
  refine Array.ext_getElem? fun m => ?_
  simp only [Array.getElem?_modify]
  split_ifs with hi hj
  · exact absurd (hj.trans hi.symm) hij
  all_goals rfl

theorem node_add_of_lt (ns : List Node) (hi : i < x.size) : (x.add ns).node i = x.node i := by
  have hi' : i < x.nodes.size := hi
  simp [add, node, Array.getElem?_append_left, hi']

theorem node_add_new (ns : List Node) (p : Nat) :
    (x.add ns).node (x.size + p) = ns.getD p default := by
  simp [add, node, size, Array.getElem?_append_right]

theorem node_add_one (n : Node) (i : Id) :
    (x.add [n]).node i = if i = x.size then n else x.node i := by
  split_ifs with hi
  · rw [hi]
    exact node_add_new _ 0
  · rcases Nat.lt_or_gt_of_ne hi with hlt | hgt
    · exact node_add_of_lt _ hlt
    · rw [node_of_size_le hgt.le, node_of_size_le]
      rw [size_add]
      exact hgt

theorem children_add_one (n : Node) (i : Id) :
    (x.add [n]).children i = if i = x.size then n.kind.children else x.children i := by
  unfold children kind
  rw [node_add_one]
  split_ifs <;> rfl

theorem replace_add (x : Graph) (ns : List Node) (hi : i < x.size) :
    (x.replace i k).add ns = (x.add ns).replace i k := by
  have hi' : i < x.nodes.size := hi
  unfold replace modify add
  congr 1
  refine Array.ext_getElem? fun m => ?_
  rw [Array.getElem?_modify]
  by_cases hm : m < x.nodes.size
  · rw [Array.getElem?_append_left (by rwa [Array.size_modify]), Array.getElem?_append_left hm,
      Array.getElem?_modify]
  · have hge := not_lt.mp hm
    rw [Array.getElem?_append_right (by rwa [Array.size_modify]), Array.getElem?_append_right hge,
      Array.size_modify, if_neg fun he : i = m => hm (he ▸ hi')]

@[simp] theorem size_graft (x : Graph) (ns : List Node) (site : Id) (k : Kind) :
    (x.graft ns site k).size = x.size + ns.length := by
  unfold graft replace
  rw [size_modify, size_add]

@[simp] theorem root_graft (x : Graph) (ns : List Node) (site : Id) (k : Kind) :
    (x.graft ns site k).root = x.root := rfl

theorem kind_graft_site (hs : site < x.size) : (x.graft ns site k).kind site = k := by
  refine kind_replace_self _ _ ?_
  rw [size_add]
  exact Nat.lt_add_right _ hs

theorem kind_graft_of_lt (hi : i < x.size) (hne : i ≠ site) :
    (x.graft ns site k).kind i = x.kind i := by
  unfold graft
  rw [kind_replace_of_ne _ _ hne.symm]
  unfold kind
  rw [node_add_of_lt _ hi]

theorem node_graft_new (hs : site < x.size) (p : Nat) :
    (x.graft ns site k).node (x.size + p) = ns.getD p default := by
  unfold graft replace
  rw [node_modify_of_ne _ _ (Nat.lt_add_right p hs).ne, node_add_new]

theorem kind_graft_new (hs : site < x.size) (p : Nat) :
    (x.graft ns site k).kind (x.size + p) = (ns.getD p default).kind :=
  congrArg Node.kind (node_graft_new hs p)

theorem part_graft_of_lt {α : Type} (part : Node → α)
    (hpart : ∀ n k, part { n with kind := k } = part n) (hi : i < x.size) :
    part ((x.graft ns site k).node i) = part (x.node i) := by
  unfold graft replace
  rw [← node_add_of_lt ns hi]
  refine node_modify_congr (x.add ns) _ part ?_ site i
  exact fun n => hpart n k

theorem parent?_graft_of_lt (hi : i < x.size) :
    (x.graft ns site k).parent? i = x.parent? i :=
  part_graft_of_lt Node.parent (fun _ _ => rfl) hi

theorem children_graft_of_lt (hi : i < x.size) (hne : i ≠ site) :
    (x.graft ns site k).children i = x.children i :=
  congrArg Kind.children (kind_graft_of_lt hi hne)

theorem kept_or_put (x : Graph) (site i : Id) :
    (i < x.size ∧ i ≠ site) ∨ i = site ∨ x.size ≤ i := by
  by_cases hi : i < x.size
  · by_cases hne : i = site
    · exact .inr (.inl hne)
    · exact .inl ⟨hi, hne⟩
  · exact .inr (.inr (not_lt.mp hi))

theorem kind_graft_cases (hs : site < x.size) (i : Id) :
    (i = site ∨ x.size ≤ i) ∧ (x.graft ns site k).kind i ∈ k :: ns.map Node.kind ∨
      i ≠ site ∧ (x.graft ns site k).kind i = x.kind i := by
  rcases kept_or_put x site i with ⟨hlt, hne⟩ | rfl | hle
  · exact .inr ⟨hne, kind_graft_of_lt hlt hne⟩
  · exact .inl ⟨.inl rfl, kind_graft_site hs ▸ List.mem_cons_self⟩
  · obtain ⟨p, rfl⟩ := Nat.exists_eq_add_of_le hle
    rw [kind_graft_new hs, List.getD_eq_getElem?_getD]
    rcases Nat.lt_or_ge p ns.length with hp | hp
    · refine .inl ⟨.inr hle, List.mem_cons_of_mem _ ?_⟩
      rw [List.getElem?_eq_getElem hp, Option.getD_some]
      exact List.mem_map_of_mem (List.getElem_mem hp)
    · refine .inr ⟨(hs.trans_le hle).ne', ?_⟩
      rw [List.getElem?_eq_none hp, Option.getD_none]
      unfold kind
      rw [node_of_size_le hle]

theorem exists_kind_graft (hs : site < x.size) (hi : i = site ∨ x.size ≤ i) {c : Id}
    (hc : c ∈ (x.graft ns site k).children i) :
    ∃ p k', (k :: ns.map Node.kind)[p]? = some k' ∧ (x.graft ns site k).kind i = k' ∧
      i = if p = 0 then site else x.size + (p - 1) := by
  rcases hi with rfl | hle
  · exact ⟨0, k, rfl, kind_graft_site hs, rfl⟩
  · obtain ⟨p, rfl⟩ := Nat.exists_eq_add_of_le hle
    have hp : p < ns.length := by
      by_contra hge
      rw [children, kind_graft_new hs, List.getD_eq_getElem?_getD,
        List.getElem?_eq_none (not_lt.mp hge)] at hc
      cases hc
    refine ⟨p + 1, _, ?_, rfl, rfl⟩
    rw [kind_graft_new hs, List.getElem?_cons_succ, List.getElem?_map, List.getElem?_eq_getElem hp,
      List.getD_eq_getElem?_getD, List.getElem?_eq_getElem hp]
    rfl

section Put

variable (hs : site < x.size) (hfit : Fits (x.children site) x.size (k :: ns.map Node.kind))

include hs hfit

theorem child_of_put (hi : i = site ∨ x.size ≤ i) {c : Id}
    (hc : c ∈ (x.graft ns site k).children i) :
    c ∈ x.children site ∨ x.size ≤ c ∧ c < x.size + ns.length := by
  obtain ⟨p, k', hp, hk, -⟩ := exists_kind_graft hs hi hc
  rw [children, hk] at hc
  refine (hfit.child k' (List.mem_of_getElem? hp) c hc).imp_right fun hn => ⟨hn.1, ?_⟩
  have hlen := hn.2
  rw [List.length_cons, List.length_map] at hlen
  exact Nat.lt_of_succ_lt_succ hlen

variable (hparts : (x.children site).Nodup) (hlt : ∀ c ∈ x.children site, c < x.size)

include hparts hlt

theorem nodup_of_put (hi : i = site ∨ x.size ≤ i) : ((x.graft ns site k).children i).Nodup := by
  by_cases hnil : (x.graft ns site k).children i = []
  · rw [hnil]
    exact List.nodup_nil
  · obtain ⟨c, hc⟩ := List.exists_mem_of_ne_nil _ hnil
    obtain ⟨p, k', hp, hk, -⟩ := exists_kind_graft hs hi hc
    rw [children, hk]
    exact (List.nodup_flatMap.mp (hfit.nodup hparts hlt)).1 k' (List.mem_of_getElem? hp)

theorem eq_of_put (hi : i = site ∨ x.size ≤ i) (hj : j = site ∨ x.size ≤ j) {c : Id}
    (hc : c ∈ (x.graft ns site k).children i) (hc' : c ∈ (x.graft ns site k).children j) :
    i = j := by
  have hdisjoint := (List.nodup_flatMap.mp (hfit.nodup hparts hlt)).2
  obtain ⟨p, kp, hp, hkp, rfl⟩ := exists_kind_graft hs hi hc
  obtain ⟨q, kq, hq, hkq, rfl⟩ := exists_kind_graft hs hj hc'
  rw [children, hkp] at hc
  rw [children, hkq] at hc'
  obtain ⟨hplt, rfl⟩ := List.getElem?_eq_some_iff.mp hp
  obtain ⟨hqlt, rfl⟩ := List.getElem?_eq_some_iff.mp hq
  rcases Nat.lt_trichotomy p q with hpq | rfl | hpq
  · exact (List.pairwise_iff_getElem.mp hdisjoint p q hplt hqlt hpq hc hc').elim
  · rfl
  · exact (List.pairwise_iff_getElem.mp hdisjoint q p hqlt hplt hpq hc' hc).elim

end Put

/-! ## Owners -/

/-- The graph `x` comes from the tree `g` by putting new nodes in the place of old ones. Each node
has an owner in `g`, and an old node is its own. -/
structure Grown (g x : Graph) (owner : Id → Id) : Prop where
  root : x.root = g.root
  size : g.size ≤ x.size
  old : ∀ i < g.size, owner i = i
  new : ∀ i, g.size ≤ i → i < x.size → owner i ∈ g.live
  child_lt : ∀ i, owner i ∈ g.live → ∀ c ∈ x.children i, c < x.size
  child_old : ∀ i, owner i ∈ g.live → ∀ c ∈ x.children i, c < g.size → c ∈ g.children (owner i)
  child_new : ∀ i, owner i ∈ g.live → ∀ c ∈ x.children i, g.size ≤ c → owner c = owner i
  nodup : ∀ i, owner i ∈ g.live → (x.children i).Nodup
  unique : ∀ i j, owner i ∈ g.live → owner i = owner j →
    ∀ c ∈ x.children i, c ∈ x.children j → i = j

namespace Grown

variable {owner : Id → Id}

theorem start (h : g.IsTree) : Grown g g id where
  root := rfl
  size := le_rfl
  old _ _ := rfl
  new _ hle hlt := absurd hlt (not_lt.mpr hle)
  child_lt := h.child_lt
  child_old _ _ _ hc _ := hc
  child_new i hi c hc hle := absurd (h.child_lt i hi c hc) (not_lt.mpr hle)
  nodup := h.children_nodup
  unique _ _ _ he _ _ _ := he

theorem sameShape (h : Grown g x owner) {y : Graph} (hs : SameShape x y) : Grown g y owner where
  root := hs.root.trans h.root
  size := hs.size ▸ h.size
  old := h.old
  new i hle hlt := h.new i hle (hs.size ▸ hlt)
  child_lt i hi c hc := by
    rw [hs.children] at hc
    rw [hs.size]
    exact h.child_lt i hi c hc
  child_old i hi c hc := by
    rw [hs.children] at hc
    exact h.child_old i hi c hc
  child_new i hi c hc := by
    rw [hs.children] at hc
    exact h.child_new i hi c hc
  nodup i hi := by
    rw [hs.children]
    exact h.nodup i hi
  unique i j hi hij c hc hcj := by
    rw [hs.children] at hc hcj
    exact h.unique i j hi hij c hc hcj

/-- What is put in the place of a node belongs to the owner of that node. -/
def graftOwner (x : Graph) (site : Id) (owner : Id → Id) (i : Id) : Id :=
  if i < x.size then owner i else owner site

theorem graftOwner_of_lt (hi : i < x.size) : graftOwner x site owner i = owner i := if_pos hi

theorem graftOwner_of_le (hi : x.size ≤ i) : graftOwner x site owner i = owner site :=
  if_neg (not_lt.mpr hi)

theorem graftOwner_put (hs : site < x.size) (hi : i = site ∨ x.size ≤ i) :
    graftOwner x site owner i = owner site := by
  rcases hi with rfl | hi
  · exact graftOwner_of_lt hs
  · exact graftOwner_of_le hi

/-- **One step**: what fits in the place of a node can be put there. -/
theorem graft (h : Grown g x owner) (hs : site < x.size) (hlive : owner site ∈ g.live)
    (hfit : Fits (x.children site) x.size (k :: ns.map Node.kind)) :
    Grown g (x.graft ns site k) (graftOwner x site owner) := by
  have hparts := h.nodup site hlive
  have hparts_lt := h.child_lt site hlive
  refine ⟨h.root, ?_, fun i hi => ?_, fun i hle _ => ?_, fun i hi c hc => ?_,
    fun i hi c hc hlt => ?_, fun i hi c hc hle => ?_, fun i hi => ?_,
    fun i j hi hij c hc hc' => ?_⟩
  · rw [size_graft]
    exact Nat.le_add_right_of_le h.size
  · rw [graftOwner_of_lt (hi.trans_le h.size), h.old i hi]
  · rcases Nat.lt_or_ge i x.size with hlt | hge
    · rw [graftOwner_of_lt hlt]
      exact h.new i hle hlt
    · rw [graftOwner_of_le hge]
      exact hlive
  · rw [size_graft]
    rcases kept_or_put x site i with ⟨hlt, hne⟩ | hput
    · rw [graftOwner_of_lt hlt] at hi
      rw [children_graft_of_lt hlt hne] at hc
      exact Nat.lt_add_right _ (h.child_lt i hi c hc)
    · rcases child_of_put hs hfit hput hc with hc | ⟨-, hc⟩
      · exact Nat.lt_add_right _ (hparts_lt c hc)
      · exact hc
  · rcases kept_or_put x site i with ⟨hlt', hne⟩ | hput
    · rw [graftOwner_of_lt hlt'] at hi ⊢
      rw [children_graft_of_lt hlt' hne] at hc
      exact h.child_old i hi c hc hlt
    · rw [graftOwner_put hs hput]
      rcases child_of_put hs hfit hput hc with hc | ⟨hc, -⟩
      · exact h.child_old site hlive c hc hlt
      · exact absurd (hlt.trans_le h.size) (not_lt.mpr hc)
  · rcases kept_or_put x site i with ⟨hlt, hne⟩ | hput
    · rw [graftOwner_of_lt hlt] at hi ⊢
      rw [children_graft_of_lt hlt hne] at hc
      rw [graftOwner_of_lt (h.child_lt i hi c hc)]
      exact h.child_new i hi c hc hle
    · rw [graftOwner_put hs hput]
      rcases child_of_put hs hfit hput hc with hc | ⟨hc, -⟩
      · rw [graftOwner_of_lt (hparts_lt c hc)]
        exact h.child_new site hlive c hc hle
      · exact graftOwner_of_le hc
  · rcases kept_or_put x site i with ⟨hlt, hne⟩ | hput
    · rw [graftOwner_of_lt hlt] at hi
      rw [children_graft_of_lt hlt hne]
      exact h.nodup i hi
    · exact nodup_of_put hs hfit hparts hparts_lt hput
  · -- a child of both an untouched node and one put in would have had two holders before
    have mixed : ∀ {i j}, i < x.size → i ≠ site → j = site ∨ x.size ≤ j → owner i = owner site →
        c ∈ (x.graft ns site k).children i → c ∈ (x.graft ns site k).children j → False := by
      intro i j hlt hne hput he hc hc'
      rw [children_graft_of_lt hlt hne] at hc
      have hi : owner i ∈ g.live := he ▸ hlive
      rcases child_of_put hs hfit hput hc' with hc' | ⟨hge, -⟩
      · exact hne (h.unique i site hi he c hc hc')
      · exact not_lt.mpr hge (h.child_lt i hi c hc)
    rcases kept_or_put x site i with ⟨hilt, hine⟩ | hiput
    · rw [graftOwner_of_lt hilt] at hi hij
      rcases kept_or_put x site j with ⟨hjlt, hjne⟩ | hjput
      · rw [graftOwner_of_lt hjlt] at hij
        rw [children_graft_of_lt hilt hine] at hc
        rw [children_graft_of_lt hjlt hjne] at hc'
        exact h.unique i j hi hij c hc hc'
      · rw [graftOwner_put hs hjput] at hij
        exact (mixed hilt hine hjput hij hc hc').elim
    · rw [graftOwner_put hs hiput] at hi hij
      rcases kept_or_put x site j with ⟨hjlt, hjne⟩ | hjput
      · rw [graftOwner_of_lt hjlt] at hij
        exact (mixed hjlt hjne hiput hij.symm hc' hc).elim
      · exact eq_of_put hs hfit hparts hparts_lt hiput hjput hc hc'

section Below

variable (h : Grown g x owner) (ht : g.IsTree)

include h ht

/-- What lies below something lies below its owner in the tree at the start, owner below owner. -/
theorem below {d : Nat} (hi : owner i ∈ g.live) (hd : x.Below i d j) :
    owner j ∈ g.live ∧ ∃ d', g.Below (owner i) d' (owner j) := by
  induction hd with
  | refl => exact ⟨hi, 0, .refl⟩
  | @step d j c _ hc ih =>
    obtain ⟨hj, d', hd'⟩ := ih
    by_cases hlt : c < g.size
    · have hchild := h.child_old j hj c hc hlt
      rw [h.old c hlt]
      exact ⟨ht.child_live hj hchild, d' + 1, .step hd' hchild⟩
    · rw [h.child_new j hj c hc (not_lt.mp hlt)]
      exact ⟨hj, d', hd'⟩

theorem owner_live (hi : i ∈ x.live) : owner i ∈ g.live := by
  obtain ⟨d, -, hd⟩ := mem_walk.mp hi
  rw [h.root] at hd
  refine (h.below ht ?_ hd).1
  rw [h.old _ ht.root_lt]
  exact ht.root_live

theorem below_owner {d : Nat} (hi : i ∈ g.live) (hd : x.Below i d j) :
    (∃ d', x.Below i d' (owner j)) ∧ ∃ d', x.Below (owner j) d' j := by
  have howner : owner i ∈ g.live := by
    rw [h.old i (ht.lt_size hi)]
    exact hi
  induction hd with
  | refl =>
    rw [h.old i (ht.lt_size hi)]
    exact ⟨⟨0, .refl⟩, 0, .refl⟩
  | @step d j c hj hc ih =>
    by_cases hlt : c < g.size
    · rw [h.old c hlt]
      exact ⟨⟨d + 1, .step hj hc⟩, 0, .refl⟩
    · rw [h.child_new j (h.below ht howner hj).1 c hc (not_lt.mp hlt)]
      obtain ⟨htop, d', hd'⟩ := ih
      exact ⟨htop, d' + 1, .step hd' hc⟩

/-- An old node that is still part of the program is still below what it was below, which is part of
the program as well. -/
theorem below_of_below {e : Nat} (hi : i ∈ g.live) (hj : j < g.size)
    (hlive : ∃ d, x.Below x.root d j) (he : g.Below i e j) :
    (∃ d, x.Below x.root d i) ∧ ∃ d, x.Below i d j := by
  have hroot : owner g.root ∈ g.live := by
    rw [h.old _ ht.root_lt]
    exact ht.root_live
  induction e generalizing j with
  | zero =>
    cases he
    exact ⟨hlive, 0, .refl⟩
  | succ e ih =>
    cases he with
    | @step _ p _ hp hc =>
      have hpl : p ∈ g.live := ht.live_of_below hi hp
      obtain ⟨d, hd⟩ := hlive
      rw [h.root] at hd
      cases hd with
      | refl => exact absurd hc (ht.unshared.root_free p hpl)
      | @step d q _ hq hcq =>
        -- the new holder belongs to the old one, which is therefore still there
        obtain ⟨hql, -⟩ := h.below ht hroot hq
        have hpq : owner q = p :=
          ht.unshared.holder_unique _ hql p hpl j (h.child_old q hql j hcq hj) hc
        obtain ⟨htop, d', hd'⟩ := h.below_owner ht ht.root_live hq
        rw [hpq] at htop hd'
        obtain ⟨hil, d'', hd''⟩ := ih (ht.lt_size hpl) (h.root ▸ htop) hp
        exact ⟨hil, _, hd''.trans (.step hd' hcq)⟩

/-- **No node gets two places.** -/
theorem unshared : x.Unshared := by
  have hlive : ∀ {i}, i ∈ x.live → owner i ∈ g.live := h.owner_live ht
  refine ⟨?_, fun i hi => h.child_lt i (hlive hi), fun i hi => h.nodup i (hlive hi),
    fun i hi j hj c hc hcj => ?_, fun i hi hc => ?_⟩
  · rw [h.root]
    exact ht.root_lt.trans_le h.size
  · refine h.unique i j (hlive hi) ?_ c hc hcj
    by_cases hlt : c < g.size
    · exact ht.unshared.holder_unique _ (hlive hi) _ (hlive hj) c
        (h.child_old i (hlive hi) c hc hlt) (h.child_old j (hlive hj) c hcj hlt)
    · have hge := not_lt.mp hlt
      rw [← h.child_new i (hlive hi) c hc hge, h.child_new j (hlive hj) c hcj hge]
  · rw [h.root] at hc
    exact ht.unshared.root_free _ (hlive hi) (h.child_old i (hlive hi) _ hc ht.root_lt)

end Below

end Grown

end Graph

end ShaderScript
