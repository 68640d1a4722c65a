import Mathlib.Data.List.Zip
import ShaderScript.Proofs.Renumber.Compact

/-!
# The tree of a program

What a program says is a tree: its nodes without their numbers, each with its parts in order. Two
programs with the same tree are the same up to the numbers of their nodes.

* `Tree`, `Graph.tree`: the tree that a program unfolds to.
* `Graph.Bare`: no facts are attached to the program.
* `Graph.Paired`: two nodes in the same place of two programs, which pairs nodes one to one
  (`Graph.Paired.unique`) and with equal labels (`Graph.Paired.label_eq`).
* **`Graph.exists_alike`**: programs with the same tree are alike.
-/

namespace ShaderScript

/-! ## Trees -/

/-- What a node is apart from the numbers of its parts. -/
def Kind.label (k : Kind) : Kind := k.map fun _ => 0

/-- A label with parts in order. -/
inductive Tree where
  | node (label : Kind) (parts : List Tree)

mutual

/-- Equality of trees is decided label by label. -/
def Tree.decEq : (s t : Tree) → Decidable (s = t)
  | .node l ss, .node m ts =>
    match instDecidableEqKind l m, Tree.decEqs ss ts with
    | isTrue hl, isTrue hs => isTrue (congrArg₂ Tree.node hl hs)
    | isFalse hl, _ => isFalse fun h => hl (Tree.node.inj h).1
    | _, isFalse hs => isFalse fun h => hs (Tree.node.inj h).2

/-- Equality of lists of trees. -/
def Tree.decEqs : (ss ts : List Tree) → Decidable (ss = ts)
  | [], [] => isTrue rfl
  | [], _ :: _ | _ :: _, [] => isFalse nofun
  | s :: ss, t :: ts =>
    match Tree.decEq s t, Tree.decEqs ss ts with
    | isTrue hs, isTrue hss => isTrue (congrArg₂ List.cons hs hss)
    | isFalse hs, _ => isFalse fun h => hs (List.cons.inj h).1
    | _, isFalse hss => isFalse fun h => hss (List.cons.inj h).2

end

instance : DecidableEq Tree := Tree.decEq

namespace Graph

/-- The tree below a node, to a depth. -/
def unfold (g : Graph) : Nat → Id → Tree
  | 0, i => .node (g.kind i).label []
  | n + 1, i => .node (g.kind i).label ((g.children i).map (g.unfold n))

/-- The tree that a program unfolds to. -/
def tree (g : Graph) : Tree := g.unfold g.size g.root

/-- No facts are attached to the program. -/
def Bare (g : Graph) : Prop :=
  ∀ i ∈ g.live, (g.node i).ty = none ∧ (g.node i).guessed = false ∧
    (g.node i).topIndex = none ∧ (g.node i).hint = none ∧ (g.node i).out = false

instance (g : Graph) : Decidable g.Bare :=
  inferInstanceAs (Decidable (∀ i ∈ g.live, _))

end Graph

/-! ## Labels -/

theorem Kind.label_map (k : Kind) (f : Id → Id) : (k.map f).label = k.label := by
  unfold label
  rw [map_map]
  rfl

theorem Kind.eq_of_label {k l : Kind} (hl : k.label = l.label) (hc : k.children = l.children) :
    k = l := by
  have option : ∀ {o p : Option Id}, o.toList = p.toList → o = p := by
    intro o p h
    cases o <;> cases p <;> simp_all
  cases k <;> cases l <;> first | (cases hl; done) | skip
  all_goals simp_all [label, map, children]
  case declarator => exact option hc.2
  case ifElse => exact option hc.2.2
  case ret => exact option hc
  case forLoop =>
    -- the label says which of the parts are there
    have length : ∀ {o p : Option Id}, o.map (fun _ => 0) = p.map (fun _ => 0) →
        o.toList.length = p.toList.length := by
      intro o p h
      cases o <;> cases p <;> simp_all
    obtain ⟨hinit, htest, hstep⟩ := hl
    obtain ⟨hinit, hc⟩ := List.append_inj hc (length hinit)
    obtain ⟨htest, hc⟩ := List.append_inj hc (length htest)
    obtain ⟨hstep, hc⟩ := List.append_inj hc (length hstep)
    exact ⟨option hinit, option htest, option hstep, (List.cons.inj hc).1⟩

namespace Graph

variable {g x : Graph} {a b c c' : Id}

/-! ## Nodes in the same place -/

/-- Two nodes in the same place of two programs. -/
inductive Paired (g x : Graph) : Id → Id → Prop
  | root : Paired g x g.root x.root
  | child {a b c c' : Id} : Paired g x a b → (c, c') ∈ (g.children a).zip (x.children b) →
      Paired g x c c'

theorem eq_of_mem_zip {α β γ : Type} {u : α → γ} {v : β → γ} {as : List α} {bs : List β}
    (h : as.map u = bs.map v) {p : α × β} (hp : p ∈ as.zip bs) : u p.1 = v p.2 := by
  induction as generalizing bs with
  | nil => cases hp
  | cons a as ih =>
    cases bs with
    | nil => cases h
    | cons b bs =>
      obtain ⟨hab, hrest⟩ := List.cons.inj h
      rcases List.mem_cons.mp hp with rfl | hp
      · exact hab
      · exact ih hrest hp

theorem eq_map_of_zip {α β : Type} {u : α → β} {as : List α} {bs : List β}
    (hlen : as.length = bs.length) (h : ∀ p ∈ as.zip bs, u p.1 = p.2) : bs = as.map u := by
  induction as generalizing bs with
  | nil => exact List.length_eq_zero_iff.mp hlen.symm
  | cons a as ih =>
    cases bs with
    | nil => cases hlen
    | cons b bs =>
      rw [List.map_cons, h (a, b) List.mem_cons_self,
        ← ih (Nat.succ.inj hlen) fun p hp => h p (List.mem_cons_of_mem _ hp)]

namespace Paired

theorem symm (h : Paired g x a b) : Paired x g b a := by
  induction h with
  | root => exact .root
  | child _ hc ih =>
    refine .child ih ?_
    rw [← List.zip_swap]
    exact List.mem_map_of_mem (f := Prod.swap) hc

section Trees

variable (hg : g.Unshared)

include hg

theorem live (h : Paired g x a b) : a ∈ g.live := by
  have hs := sameShape_link g
  rw [← hs.live]
  induction h with
  | root =>
    rw [← hs.root]
    exact hg.isTree_link.root_live
  | child _ hc ih =>
    refine hg.isTree_link.child_live ih ?_
    rw [hs.children]
    exact (List.of_mem_zip hc).1

omit hg in
theorem exists_of_live
    (htotal : ∀ a b, Paired g x a b → (g.children a).length = (x.children b).length)
    (ha : a ∈ g.live) : ∃ b, Paired g x a b := by
  obtain ⟨d, -, hd⟩ := mem_walk.mp ha
  clear ha
  induction hd with
  | refl => exact ⟨x.root, .root⟩
  | @step d j c _ hc ih =>
    obtain ⟨b, hb⟩ := ih
    obtain ⟨n, hn, rfl⟩ := List.getElem_of_mem hc
    have hn' : n < (x.children b).length := htotal j b hb ▸ hn
    refine ⟨(x.children b)[n], hb.child ?_⟩
    exact List.mem_iff_getElem.mpr ⟨n, by rw [List.length_zip]; omega, List.getElem_zip⟩

/-- **A node is in one place only.** -/
theorem unique (h : Paired g x a b) {b' : Id} (h' : Paired g x a b') : b = b' := by
  induction h generalizing b' with
  | root =>
    cases h' with
    | root => rfl
    | child hp hc => exact absurd (List.of_mem_zip hc).1 (hg.root_free _ (hp.live hg))
  | @child a b c d hab hcd ih =>
    cases h' with
    | root => exact absurd (List.of_mem_zip hcd).1 (hg.root_free _ (hab.live hg))
    | @child a' b' _ d' hab' hcd' =>
      obtain rfl := hg.holder_unique a (hab.live hg) a' (hab'.live hg) c
        (List.of_mem_zip hcd).1 (List.of_mem_zip hcd').1
      obtain rfl := ih hab'
      obtain ⟨n, hn, he⟩ := List.mem_iff_getElem.mp hcd
      obtain ⟨n', hn', he'⟩ := List.mem_iff_getElem.mp hcd'
      rw [List.getElem_zip] at he he'
      obtain ⟨hc, hd⟩ := Prod.mk.inj he
      obtain ⟨hc', hd'⟩ := Prod.mk.inj he'
      have hnn : n = n' :=
        (hg.children_nodup a (hab.live hg)).getElem_inj_iff.mp (hc.trans hc'.symm)
      subst hnn
      exact hd.symm.trans hd'

variable (hx : x.Unshared) (ht : g.tree = x.tree)

include hx ht

theorem exists_unfold (h : Paired g x a b) : ∃ n m, (∀ d j, g.Below a d j → d < n) ∧
    (∀ d j, x.Below b d j → d < m) ∧ g.unfold n a = x.unfold m b := by
  have depth : ∀ {y : Graph}, y.Unshared → ∀ d j, y.Below y.root d j → d < y.size := by
    intro y hy d j hd
    have hs := sameShape_link y
    rw [← hs.size]
    exact hy.isTree_link.depth_lt (hs.root.symm ▸ hs.symm.below hd)
  induction h with
  | root => exact ⟨g.size, x.size, depth hg, depth hx, ht⟩
  | @child a b c c' _ hc ih =>
    obtain ⟨n, m, hn, hm, he⟩ := ih
    obtain ⟨n, rfl⟩ := Nat.exists_eq_add_of_lt (hn 0 a .refl)
    obtain ⟨m, rfl⟩ := Nat.exists_eq_add_of_lt (hm 0 b .refl)
    rw [Nat.zero_add] at hn hm he
    rw [Nat.zero_add] at he
    obtain ⟨-, hparts⟩ := Tree.node.inj he
    refine ⟨n, m, fun d j hd => ?_, fun d j hd => ?_, eq_of_mem_zip hparts hc⟩
    · exact Nat.lt_of_succ_lt_succ (hn (d + 1) j (hd.cons (List.of_mem_zip hc).1))
    · exact Nat.lt_of_succ_lt_succ (hm (d + 1) j (hd.cons (List.of_mem_zip hc).2))

theorem label_eq (h : Paired g x a b) : (g.kind a).label = (x.kind b).label := by
  obtain ⟨n, m, -, -, he⟩ := h.exists_unfold hg hx ht
  cases n <;> cases m <;> exact (Tree.node.inj he).1

omit hg hx ht in
theorem length_of_label {k l : Kind} (hl : k.label = l.label) :
    k.children.length = l.children.length := by
  have hc := congrArg (fun k => (Kind.children k).length) hl
  simpa only [Kind.label, Kind.children_map, List.length_map] using hc

end Trees

end Paired

/-! ## The same tree -/

/-- **Programs with the same tree are alike.** -/
theorem exists_alike (hg : g.Unshared) (hx : x.Unshared) (hgb : g.Bare) (hxb : x.Bare)
    (ht : g.tree = x.tree) : ∃ f, Alike False f g.link x := by
  classical
  have hs := sameShape_link g
  have hlen : ∀ a b, Paired g x a b → (g.children a).length = (x.children b).length := fun a b h =>
    Paired.length_of_label (h.label_eq hg hx ht)
  let f : Id → Id := fun i => if h : ∃ b, Paired g x i b then h.choose else 0
  have hf : ∀ {a b}, Paired g x a b → f a = b := by
    intro a b h
    have hex : ∃ b, Paired g x a b := ⟨b, h⟩
    change dite _ _ _ = b
    rw [dif_pos hex]
    exact hex.choose_spec.unique hg h
  have hpaired : ∀ i ∈ g.live, Paired g x i (f i) := by
    intro i hi
    obtain ⟨b, hb⟩ := Paired.exists_of_live hlen hi
    rw [hf hb]
    exact hb
  have hkind : ∀ i ∈ g.live, x.kind (f i) = (g.kind i).map f := by
    intro i hi
    have hp := hpaired i hi
    refine Kind.eq_of_label ?_ ?_
    · rw [Kind.label_map]
      exact (hp.label_eq hg hx ht).symm
    · rw [Kind.children_map]
      exact eq_map_of_zip (hlen _ _ hp) fun p hc => hf (hp.child hc)
  refine ⟨f, fun i hi j hj he => ?_, ?_, fun i hi => ?_, fun i hi => ?_⟩ <;> try rw [hs.live] at hi
  · rw [hs.live] at hj
    exact (hpaired i hi).symm.unique hx (he ▸ (hpaired j hj).symm)
  · rw [hs.root]
    exact (hf .root).symm
  · have hxl := (hpaired i hi).symm.live hx
    rw [← (sameShape_link x).live] at hxl
    rw [← (sameShape_link x).size]
    exact hx.isTree_link.lt_size hxl
  · have hxl := (hpaired i hi).symm.live hx
    obtain ⟨ty, guessed, topIndex, hint, out⟩ := hgb i hi
    obtain ⟨ty', guessed', topIndex', hint', out'⟩ := hxb _ hxl
    have fact : ∀ {α : Type} (part : Node → α), (∀ n p, part { n with parent := p } = part n) →
        ∀ {v}, part (g.node i) = v → part (x.node (f i)) = v →
        part (x.node (f i)) = part (g.link.node i) := by
      intro α part hpart v hv hv'
      rw [part_link part hpart, hv, hv']
    refine ⟨?_, False.elim, fact Node.ty (fun _ _ => rfl) ty ty',
      fact Node.guessed (fun _ _ => rfl) guessed guessed',
      fact Node.topIndex (fun _ _ => rfl) topIndex topIndex',
      fact Node.hint (fun _ _ => rfl) hint hint', fact Node.out (fun _ _ => rfl) out out'⟩
    exact (hkind i hi).trans (congrArg (Kind.map f) (hs.kind i)).symm

end Graph

end ShaderScript
