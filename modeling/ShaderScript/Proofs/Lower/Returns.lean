import ShaderScript.Builder
import ShaderScript.Proofs.Lower.Exits
import ShaderScript.Proofs.Renumber.Compact

/-!
# What becomes of returns without value

Each return without value of a function becomes a `discard` followed by a `return` of zeros where it
stood, and nothing else changes.

* `Graph.live_of_kept`, `Graph.ancestors_of_kept`: nodes stay where they stand if every node holds
  what it held.
* `Graph.bareReturns`: the returns without value of a function.
* `Graph.Spells`: what one of them becomes.
* `Graph.DiscardsSpelled`: a program beside the one with all of them spelled out.
* `Graph.Treated.complete`: every return gives a value.
* **`lowerDiscards_spells`**: lowering gives that, for every program.
-/

namespace ShaderScript

namespace Graph

variable {g x : Graph} {t : Ty} {width : Nat} {r p : Id}

/-! ## Nodes that stay -/

section Stays

variable {g' : Graph} {i : Id} (h : g.IsTree) (h' : g'.IsTree) (hroot : g'.root = g.root)
  (hkept : ∀ i c, c ∈ g.children i → c ∈ g'.children i) (hi : i ∈ g.live)

include h h' hroot hkept hi

/-- Where every node holds what it held, the program has the nodes that it had. -/
theorem live_of_kept : i ∈ g'.live := by
  obtain ⟨d, hd⟩ := h.mem_live_iff.mp hi
  clear hi
  induction hd with
  | refl =>
    rw [← hroot]
    exact h'.root_live
  | step _ hc ih => exact h'.child_live ih (hkept _ _ hc)

theorem parent?_of_kept : g'.parent? i = g.parent? i := by
  cases hp : g.parent? i with
  | some p =>
    obtain ⟨hpl, hc⟩ := h.parent_live hi hp
    exact h'.parent_child p (live_of_kept h h' hroot hkept hpl) i (hkept p i hc)
  | none =>
    obtain ⟨d, hd⟩ := h.mem_live_iff.mp hi
    cases hd with
    | refl =>
      rw [← hroot]
      exact h'.parent_root
    | @step d q _ hq hc =>
      rw [h.parent_child q (h.mem_live_iff.mpr ⟨d, hq⟩) i hc] at hp
      cases hp

theorem ancestors_of_kept : g'.ancestors i = g.ancestors i := by
  obtain ⟨d, hd⟩ := h.mem_live_iff.mp hi
  induction hd with
  | refl =>
    unfold ancestors
    rw [parent?_of_kept h h' hroot hkept hi, h.parent_root]
    cases g.size <;> cases g'.size <;> rfl
  | @step d j c hj hc ih =>
    have hjl : j ∈ g.live := h.mem_live_iff.mpr ⟨d, hj⟩
    have hp := h.parent_child j hjl c hc
    have hp' := (parent?_of_kept h h' hroot hkept hi).trans hp
    rw [h.ancestors_eq_cons hi hp, h'.ancestors_eq_cons (live_of_kept h h' hroot hkept hi) hp',
      ih hjl]

end Stays

/-! ## All of it -/

/-- The returns without value that belong to a function and to no function inside it. -/
def bareReturns (g : Graph) (f : Id) : List Id :=
  (g.returns f).filter fun r => g.kind r == .ret none

/-- A return without value of `g` is a `discard` and a return of a zero in `g'`. The `discard`
stands before it in its block, or both stand in a block that has its place. -/
structure Spells (g g' : Graph) (t : Ty) (width : Nat) (r : Id) (e : Exit) : Prop where
  fresh : g.size ≤ e.discard ∧ g.size ≤ e.value
  discard : g'.kind e.discard = .discard
  value : g'.IsZero t width e.value
  ret : g'.kind e.ret = .ret (some e.value)
  inBlock : g.InBlock r → e.ret = r
  alone : ¬ g.InBlock r → g'.kind r = .block [e.discard, e.ret]

/-- The program `g'` is `g` with the returns without value of a function spelled out. -/
structure DiscardsSpelled (g g' : Graph) (f : Id) (t : Ty) (width : Nat) : Prop where
  /-- Parents are right again. -/
  isTree : g'.IsTree
  root : g'.root = g.root
  /-- Every return of the function gives a value. -/
  complete : ∀ r ∈ g'.live, g'.isReturn r = true → g'.enclosingFunction? r = some f →
    (g'.returned? r).isSome = true
  /-- Every node of the program stands where it stood. -/
  place : ∀ i ∈ g.live, i ∈ g'.live ∧ g'.parent? i = g.parent? i
  /-- Returns without value are spelled out, and blocks hold what they held in the same order, with
  a `discard` before each of these returns. -/
  spelled : ∃ e : Id → Exit, (∀ r ∈ g.bareReturns f, g.Spells g' t width r (e r)) ∧
    ∀ p ∈ g.live, ∀ body, g.kind p = .block body → g'.kind p =
      .block (body.flatMap fun s => if s ∈ g.bareReturns f then [(e s).discard, s] else [s])
  /-- All else stays the same. -/
  kept : ∀ i ∈ g.live, i ∉ g.bareReturns f →
    (∀ body, g.kind i = .block body → ∀ s ∈ body, s ∉ g.bareReturns f) → g'.node i = g.node i
  /-- So does all that is in no function or in another one. -/
  outside : ∀ i ∈ g.live, g.enclosingFunction? i ≠ some f → g'.node i = g.node i

theorem mem_bareReturns (ht : g.IsTree) {f : Id} (hf : f ∈ g.live) : r ∈ g.bareReturns f ↔
    r ∈ g.live ∧ g.kind r = .ret none ∧ g.enclosingFunction? r = some f := by
  unfold bareReturns returns
  rw [List.mem_filter, List.mem_filter, Bool.and_eq_true, beq_iff_eq, beq_iff_eq]
  constructor
  · rintro ⟨⟨hr, -, hin⟩, hk⟩
    obtain ⟨d, hd⟩ := (ht.mem_descendants_iff hf).mp hr
    exact ⟨ht.live_of_below hf hd, hk, hin⟩
  · rintro ⟨hr, hk, hin⟩
    refine ⟨⟨ht.mem_descendants hr (List.mem_of_find?_eq_some hin), ?_, hin⟩, hk⟩
    unfold isReturn
    rw [hk]

theorem enclosingFunction?_block (ht : g.IsTree) (hp : p ∈ g.live) {body : List Id}
    (hk : g.kind p = .block body) (hr : r ∈ body) :
    g.enclosingFunction? r = g.enclosingFunction? p := by
  have hc : r ∈ g.children p := by
    rw [children, hk]
    exact hr
  have hno : g.isFunction p = false := by
    unfold isFunction
    rw [hk]
  unfold enclosingFunction?
  rw [ht.ancestors_eq_cons (ht.child_live hp hc) (ht.parent_child p hp r hc),
    List.find?_cons_of_neg (by rw [hno]; exact Bool.false_ne_true)]

theorem isFunction_iff {i : Id} : g.isFunction i = true ↔
    ∃ name params body, g.kind i = .function name params body := by
  unfold isFunction
  cases g.kind i <;> simp

end Graph

theorem Node.eq_of_facts {n m : Node} (hfacts : n.facts = m.facts) (hk : n.kind = m.kind)
    (hp : n.parent = m.parent) : n = m := by
  cases n
  cases m
  cases hk
  cases hp
  simpa [facts] using hfacts

namespace Graph.DiscardsLowered

variable {g x : Graph} (hx : DiscardsLowered g x) (ht : g.IsTree)

include hx ht

theorem isTree : x.link.IsTree := by
  obtain ⟨owner, hgrown⟩ := hx.lowered.grown
  exact (hgrown.unshared ht).isTree_link

omit ht in
theorem children_link (i c : Id) (hc : c ∈ g.children i) : c ∈ x.link.children i := by
  rw [(sameShape_link x).children]
  exact hx.kept i (lt_size_of_mem_children hc) c hc

theorem enclosingFunction?_link {i : Id} (hi : i ∈ g.live) :
    x.link.enclosingFunction? i = g.enclosingFunction? i := by
  have hfunction : x.link.isFunction = g.isFunction := by
    funext j
    rw [(sameShape_link x).isFunction, Bool.eq_iff_iff, isFunction_iff, isFunction_iff]
    refine exists_congr fun name => exists_congr fun params => exists_congr fun body => ?_
    exact hx.lowered.lasting j _ rfl
  unfold enclosingFunction?
  rw [hfunction, ancestors_of_kept ht (hx.isTree ht) ((sameShape_link x).root.trans hx.lowered.root)
    hx.children_link hi]

end Graph.DiscardsLowered

namespace Graph.Treated

variable {g x : Graph} {t : Ty} {width : Nat} {f : Id} {e : Id → Exit}
  (h : Treated g x t width (g.bareReturns f) e) (hx : DiscardsLowered g x) (ht : g.IsTree)
  (hf : f ∈ g.live)

include h hx ht hf

theorem complete {r : Id} (hr : r ∈ x.link.live) (hreturn : x.link.isReturn r = true)
    (hin : x.link.enclosingFunction? r = some f) : (x.link.returned? r).isSome = true := by
  by_contra hnone
  have hk : x.kind r = .ret none := by
    rw [← (sameShape_link x).kind]
    unfold isReturn at hreturn
    unfold returned? at hnone
    split at hreturn
    case h_2 => cases hreturn
    case h_1 argument hk =>
      rw [hk] at hnone ⊢
      rw [Bool.not_eq_true, Option.isSome_eq_false_iff, Option.isNone_iff_eq_none] at hnone
      exact congrArg Kind.ret hnone
  -- a return that is new has a value, and any other one was treated
  have hlt : r < g.size := by
    by_contra hge
    exact h.new r (not_lt.mp hge) hk
  obtain ⟨owner, hgrown⟩ := hx.lowered.grown
  have hrl : r ∈ g.live := by
    rw [← hgrown.old r hlt]
    exact hgrown.owner_live ht ((sameShape_link x).live ▸ hr)
  obtain ⟨hnot, hbare⟩ := h.bare_of_bare ht hrl hk
  rw [hx.enclosingFunction?_link ht hrl] at hin
  exact hnot ((mem_bareReturns ht hf).mpr ⟨hrl, hbare, hin⟩)

omit hx ht hf in
theorem spells {r : Id} (hr : r ∈ g.bareReturns f) : g.Spells x.link t width r (e r) := by
  have hs := sameShape_link x
  have hplaced := h.placed r hr
  obtain ⟨first, hle, -, hzero, hvalue⟩ := hplaced.value
  have hlinked : x.link.HasZero t width first := hzero.mono fun i _ _ =>
    ⟨hs.kind i, part_link Node.ty (fun _ _ => rfl) x i⟩
  refine ⟨⟨hplaced.fresh.1, ?_⟩, ?_, ?_, ?_, hplaced.inBlock, fun hb => ?_⟩
  · rw [hvalue]
    exact Nat.le_add_right_of_le hle
  · rw [hs.kind, hplaced.discard]
  · rw [hvalue]
    exact hlinked.isZero
  · rw [hs.kind, hplaced.ret]
  · rw [hs.kind, (hplaced.alone hb).2]

omit hf in
/-- What is neither a return without value of the function nor a block with one stays. -/
theorem node_link (hfacts : Extends g x) {i : Id} (hi : i ∈ g.live) (hnot : i ∉ g.bareReturns f)
    (hb : ∀ body, g.kind i = .block body → ∀ s ∈ body, s ∉ g.bareReturns f) :
    x.link.node i = g.node i := by
  have hs := sameShape_link x
  have hlt := ht.lt_size hi
  refine Node.eq_of_facts ((hfacts.trans (.link x)).facts i hlt) ?_ ?_
  · change x.link.kind i = g.kind i
    rw [hs.kind]
    by_cases hblock : ∃ body, g.kind i = .block body
    · obtain ⟨body, hk⟩ := hblock
      rw [h.body i hi body hk, flatMap_withDiscard_of_notMem (hb body hk), hk]
    · exact h.other i hlt hnot fun body hk => hblock ⟨body, hk⟩
  · exact parent?_of_kept ht (hx.isTree ht) (hs.root.trans hx.lowered.root) hx.children_link hi

/-- **All returns of the function are spelled out.** -/
theorem discardsSpelled (hfacts : Extends g x) : g.DiscardsSpelled x.link f t width := by
  have hs := sameShape_link x
  have hroot := hs.root.trans hx.lowered.root
  have hkept : ∀ i ∈ g.live, i ∉ g.bareReturns f →
      (∀ body, g.kind i = .block body → ∀ s ∈ body, s ∉ g.bareReturns f) →
      x.link.node i = g.node i := fun i hi hnot hb => h.node_link hx ht hfacts hi hnot hb
  refine ⟨hx.isTree ht, hroot, fun r hr => h.complete hx ht hf hr, fun i hi =>
    ⟨live_of_kept ht (hx.isTree ht) hroot hx.children_link hi,
      parent?_of_kept ht (hx.isTree ht) hroot hx.children_link hi⟩,
    ⟨e, fun r hr => h.spells hr, fun p hp body hk => ?_⟩, hkept, fun i hi hin => ?_⟩
  · rw [hs.kind, h.body p hp body hk]
    rfl
  · refine hkept i hi (fun hmem => hin ((mem_bareReturns ht hf).mp hmem).2.2)
      fun body hk s hsb hmem => hin ?_
    rw [← enclosingFunction?_block ht hi hk hsb]
    exact ((mem_bareReturns ht hf).mp hmem).2.2

end Graph.Treated

open Graph

/-- **Lowering returns spells out those without value** and does nothing else, for a function that
gives a number or a vector. -/
theorem lowerDiscards_spells {g : Graph} (h : g.IsTree) {f name body : Id} {params : List Id}
    (hf : f ∈ g.live) (hk : g.kind f = .function name params body) {width : Nat}
    (hw : ((g.ty? name).getD .float).width? = some width) :
    g.DiscardsSpelled (g.lowerDiscards f) f ((g.ty? name).getD .float) width := by
  unfold lowerDiscards
  rw [hk]
  dsimp only
  rw [hw]
  dsimp only
  have hlive : ∀ r ∈ g.returns f, r ∈ g.live := fun _ => live_of_mem_returns h hf
  have hnodup : (g.returns f).Nodup := (h.unshared.nodup_descendants hf).filter _
  obtain ⟨e, htreated⟩ := exists_treated h hlive hnodup
  exact Treated.discardsSpelled htreated (discardsLowered_foldl h hlive _ _) h hf
    (.foldl (extends_lowerDiscard _ _) _ g)

/-- The program
`function f(c) { if (c) return; return; function g() { return; } return; return c; }`, where `f`
gives two components. -/
def abandonedEarly : Graph := Graph.setTy (Build.finish do
  let branch ← Build.ifElse (← Build.ident "c") (← Build.ret none) none
  let first ← Build.ret none
  let inner ← Build.block [← Build.ret none]
  let nested ← Build.node (.function (← Build.ident "g") [] inner)
  let second ← Build.ret none
  let last ← Build.ret (some (← Build.ident "c"))
  let _ ← Build.function "f" ["c"] [branch, first, nested, second, last]) 11 (some .vec2)

/-- Two returns share a block with a function that keeps its own, and one gets a block. -/
theorem lowerDiscards_spells_abandonedEarly : abandonedEarly.IsTree ∧ 14 ∈ abandonedEarly.live ∧
    abandonedEarly.kind 14 = .function 11 [12] 13 ∧
    ((abandonedEarly.ty? 11).getD .float).width? = some 2 ∧
    abandonedEarly.DiscardsSpelled (abandonedEarly.lowerDiscards 14) 14
      ((abandonedEarly.ty? 11).getD .float) 2 ∧
    abandonedEarly.bareReturns 14 = [1, 3, 8] ∧
    (abandonedEarly.lowerDiscards 14).kind 13 = .block [2, 26, 3, 7, 31, 8, 10] ∧
    (abandonedEarly.lowerDiscards 14).kind 1 = .block [20, 21] ∧
    (abandonedEarly.lowerDiscards 14).kind 4 = .ret none := by
  have h : abandonedEarly.IsTree := by decide +kernel
  have hf : 14 ∈ abandonedEarly.live := by decide +kernel
  have hk : abandonedEarly.kind 14 = .function 11 [12] 13 := by decide +kernel
  have hw : ((abandonedEarly.ty? 11).getD .float).width? = some 2 := by decide +kernel
  exact ⟨h, hf, hk, hw, lowerDiscards_spells h hf hk hw, by decide +kernel, by decide +kernel,
    by decide +kernel, by decide +kernel⟩

end ShaderScript
