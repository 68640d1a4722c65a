import ShaderScript.Proofs.Lower.Discards
import ShaderScript.Proofs.Lower.Facts

/-!
# Treating returns one by one

The returns of a function are listed once, and then the program changes under the list: one block
may hold several of them, and each one moves those behind it. All the same each becomes a `discard`
followed by a `return` of zeros where it stood.

* `Exit`: the nodes that a return without value becomes.
* `Graph.IsZero`: a node is the zero of a type.
* `Graph.DiscardStep`, `Graph.exists_discardStep`: what happens at one return.
* `Graph.Treated`: what holds after some returns have been treated.
* **`Graph.Treated.step`**, `Graph.exists_treated`: one more return, and all of them.
-/

namespace ShaderScript

/-- The nodes that a return without value becomes: a `discard`, a zero, and a return of it. -/
structure Exit where
  discard : Id
  value : Id
  ret : Id
deriving Inhabited

namespace Graph

variable {g x y : Graph} {t : Ty} {width first : Nat} {r p : Id} {e : Exit}

/-! ## Zeros -/

/-- The number zero. -/
def IsZeroNumber (g : Graph) (i : Id) : Prop := g.kind i = .number "0" ∧ g.ty? i = some .float

/-- The zero of a type: the number zero, or a call of the type with a zero for each component. -/
def IsZero (g : Graph) (t : Ty) (width : Nat) (i : Id) : Prop :=
  if width = 1 then g.IsZeroNumber i
  else g.ty? i = some t ∧ ∃ callee args, g.kind i = .call callee args ∧
    g.kind callee = .ident t.name ∧ g.ty? callee = some t ∧
    args.length = width ∧ ∀ a ∈ args, g.IsZeroNumber a

/-- The nodes of a zero stand together from a number on. -/
def HasZero (x : Graph) (t : Ty) (width first : Nat) : Prop :=
  ∀ p n, (zeroNodes t width first)[p]? = some n →
    x.kind (first + p) = n.kind ∧ x.ty? (first + p) = n.ty

theorem HasZero.isZero (h : x.HasZero t width first) :
    x.IsZero t width (first + ((zeroNodes t width first).length - 1)) := by
  unfold HasZero zeroNodes at h
  unfold IsZero zeroNodes
  split_ifs at h ⊢ with hw
  · exact h 0 zeroNode rfl
  · have hcall := h (width + 1)
      { kind := .call first (List.range' (first + 1) width), ty := some t } (by simp)
    have hlength : ({ kind := .ident t.name, ty := some t } :: (List.replicate width zeroNode ++
        [{ kind := .call first (List.range' (first + 1) width), ty := some t }])).length - 1 =
          width + 1 := by simp
    rw [hlength]
    obtain ⟨hk, hty⟩ := h 0 _ rfl
    refine ⟨hcall.2, first, _, hcall.1, hk, hty, List.length_range', fun a ha => ?_⟩
    obtain ⟨q, hq, rfl⟩ := List.mem_range'.mp ha
    have hzero := h (q + 1) zeroNode (by
      rw [List.getElem?_cons_succ, List.getElem?_append_left (by rwa [List.length_replicate]),
        List.getElem?_replicate, if_pos hq])
    rw [Nat.one_mul, Nat.add_assoc, Nat.add_comm 1 q]
    exact hzero

theorem zeroNodes_ne_ret {k : Kind} (hk : k ∈ (zeroNodes t width first).map Node.kind) :
    k ≠ .ret none := by
  rintro rfl
  unfold zeroNodes at hk
  split_ifs at hk <;> simp [zeroNode] at hk

/-! ## One return -/

/-- One step: new nodes are put for a return, beside it in its block or below it. -/
structure DiscardStep (x y : Graph) (t : Ty) (width : Nat) (r : Id) (e : Exit) : Prop where
  facts : Extends x y
  size : x.size + (zeroNodes t width x.size).length ≤ y.size
  fresh : x.size ≤ e.discard ∧ e.discard < y.size
  discard : y.kind e.discard = .discard
  zero : y.HasZero t width x.size
  value : e.value = x.zeroAt t width
  ret : y.kind e.ret = .ret (some e.value)
  new : ∀ i, x.size ≤ i → y.kind i ≠ .ret none
  place : (∃ p body, x.parent? r = some p ∧ x.kind p = .block body ∧
      y.kind p = .block (body.insertIdx (body.idxOf r) e.discard) ∧ e.ret = r ∧
      ∀ i < x.size, i ≠ r → i ≠ p → y.kind i = x.kind i) ∨
    (∀ p body, x.parent? r = some p → x.kind p ≠ .block body) ∧
      (x.size ≤ e.ret ∧ e.ret < y.size) ∧ y.kind r = .block [e.discard, e.ret] ∧
      ∀ i < x.size, i ≠ r → y.kind i = x.kind i

theorem hasZero_graft (ms : List Node) {site : Id} {k : Kind} (hs : site < x.size) :
    (x.graft (zeroNodes t width x.size ++ ms) site k).HasZero t width x.size := by
  intro q n hn
  have hq := (List.getElem?_eq_some_iff.mp hn).1
  have hnode : (x.graft (zeroNodes t width x.size ++ ms) site k).node (x.size + q) = n := by
    rw [node_graft_new hs, List.getD_eq_getElem?_getD, List.getElem?_append_left hq, hn,
      Option.getD_some]
  exact ⟨congrArg Node.kind hnode, congrArg Node.ty hnode⟩

theorem kind_graft_ne_ret {ns : List Node} {site i : Id} {k : Kind} (hs : site < x.size)
    (hns : ∀ n ∈ ns, n.kind ≠ .ret none) (hk : k ≠ .ret none) (hi : x.size ≤ i) :
    (x.graft ns site k).kind i ≠ .ret none := by
  rcases kind_graft_cases hs i with ⟨-, hmem⟩ | ⟨-, he⟩
  · rcases List.mem_cons.mp hmem with he | hmem
    · rw [he]
      exact hk
    · obtain ⟨n, hn, he⟩ := List.mem_map.mp hmem
      rw [← he]
      exact hns n hn
  · rw [he]
    unfold kind
    rw [node_of_size_le hi]
    exact nofun

theorem HasZero.mono (h : x.HasZero t width first)
    (hsame : ∀ i, first ≤ i → i < first + (zeroNodes t width first).length →
      y.kind i = x.kind i ∧ y.ty? i = x.ty? i) : y.HasZero t width first := by
  intro q n hn
  have hq := (List.getElem?_eq_some_iff.mp hn).1
  obtain ⟨hk, hty⟩ := hsame (first + q) (Nat.le_add_right _ _) (Nat.add_lt_add_left hq _)
  rw [hk, hty]
  exact h q n hn

theorem discardStep_block {body : List Id} (h : x.kind r = .ret none) (hr : r < x.size)
    (hp : x.parent? r = some p) (hplt : p < x.size) (hk : x.kind p = .block body) :
    DiscardStep x (lowerDiscard t width x r) t width r
      ⟨x.size + (zeroNodes t width x.size).length, x.zeroAt t width, r⟩ := by
  have hpr : p ≠ r := by
    rintro rfl
    rw [hk] at h
    cases h
  have hfacts := extends_lowerDiscard t width x r
  rw [lowerDiscard_block h hr hp hplt hk] at hfacts ⊢
  -- first the zero is put below the return, and then the `discard` into the block
  generalize hx : x.graft (zeroNodes t width x.size) r (.ret (some (x.zeroAt t width))) = x'
    at hfacts ⊢
  have hsize : x'.size = x.size + (zeroNodes t width x.size).length := by
    rw [← hx, size_graft]
  have hlt : ∀ i, i < x.size → i < x'.size := fun i hi => hsize ▸ Nat.lt_add_right _ hi
  have hzero : x'.HasZero t width x.size := by
    have hput : (x.graft (zeroNodes t width x.size ++ []) r
        (.ret (some (x.zeroAt t width)))).HasZero t width x.size := hasZero_graft [] hr
    rwa [List.append_nil, hx] at hput
  rw [← hsize] at hfacts ⊢
  refine ⟨hfacts, ?_, ⟨?_, ?_⟩, ?_, ?_, rfl, ?_, fun i hi => ?_,
    .inl ⟨p, body, hp, hk, ?_, rfl, ?_⟩⟩
  · rw [size_graft, hsize]
    exact Nat.le_add_right _ _
  · rw [hsize]
    exact Nat.le_add_right _ _
  · rw [size_graft]
    exact Nat.lt_succ_self _
  · exact kind_graft_new (hlt p hplt) 0
  · refine hzero.mono fun i hle hi => ?_
    rw [← hsize] at hi
    exact ⟨kind_graft_of_lt hi (hplt.trans_le hle).ne',
      part_graft_of_lt Node.ty (fun _ _ => rfl) hi⟩
  · rw [kind_graft_of_lt (hlt r hr) hpr.symm, ← hx, kind_graft_site hr]
  · by_cases hnew : x'.size ≤ i
    · exact kind_graft_ne_ret (hlt p hplt) (by simp) nofun hnew
    · rw [kind_graft_of_lt (not_le.mp hnew) (hplt.trans_le hi).ne', ← hx]
      exact kind_graft_ne_ret hr (fun n hn => zeroNodes_ne_ret (List.mem_map_of_mem hn)) nofun hi
  · exact kind_graft_site (hlt p hplt)
  · intro i hi hir hip
    rw [kind_graft_of_lt (hlt i hi) hip, ← hx, kind_graft_of_lt hi hir]

theorem discardStep_else (h : x.kind r = .ret none) (hr : r < x.size)
    (hk : ∀ p body, x.parent? r = some p → x.kind p ≠ .block body)
    (hp : ∀ p, x.parent? r = some p → p < x.size) :
    DiscardStep x (lowerDiscard t width x r) t width r
      ⟨x.size + (zeroNodes t width x.size).length, x.zeroAt t width,
        x.size + (zeroNodes t width x.size).length + 1⟩ := by
  have hfacts := extends_lowerDiscard t width x r
  rw [lowerDiscard_else h hr hk hp] at hfacts ⊢
  generalize hn : (zeroNodes t width x.size).length = n at hfacts ⊢
  have hlast : ∀ (ms : List Node) q, (zeroNodes t width x.size ++ ms).getD (n + q) default =
      ms.getD q default := by
    intro ms q
    rw [List.getD_eq_getElem?_getD, List.getElem?_append_right (by omega), hn,
      Nat.add_sub_cancel_left, List.getD_eq_getElem?_getD]
  refine ⟨hfacts, ?_, ⟨?_, ?_⟩, ?_, hasZero_graft _ hr, rfl, ?_, fun i hi => ?_,
    .inr ⟨hk, ⟨?_, ?_⟩, kind_graft_site hr, fun i hi hir => kind_graft_of_lt hi hir⟩⟩
  · rw [size_graft, List.length_append]
    omega
  · exact Nat.le_add_right _ _
  · rw [size_graft, List.length_append, hn]
    exact Nat.add_lt_add_left (Nat.lt_add_of_pos_right Nat.two_pos) _
  · dsimp only
    rw [kind_graft_new hr]
    exact congrArg Node.kind (hlast _ 0)
  · dsimp only
    rw [Nat.add_assoc, kind_graft_new hr]
    exact congrArg Node.kind (hlast _ 1)
  · refine kind_graft_ne_ret hr (fun m hm => ?_) nofun hi
    rcases List.mem_append.mp hm with hm | hm
    · exact zeroNodes_ne_ret (List.mem_map_of_mem hm)
    · simp only [List.mem_cons, List.not_mem_nil, or_false] at hm
      rcases hm with rfl | rfl <;> exact nofun
  · exact Nat.le_add_right_of_le (Nat.le_add_right _ _)
  · rw [size_graft, List.length_append, hn]
    exact Nat.add_lt_add_left (Nat.add_lt_add_left Nat.one_lt_two _) _

/-- Whether a node stands in a block. -/
def InBlock (g : Graph) (i : Id) : Prop := ∃ p body, g.parent? i = some p ∧ g.kind p = .block body

theorem exists_discardStep (h : x.kind r = .ret none) (hr : r < x.size)
    (hp : ∀ p, x.parent? r = some p → p < x.size) :
    ∃ e, DiscardStep x (lowerDiscard t width x r) t width r e := by
  by_cases hblock : x.InBlock r
  · obtain ⟨p, body, hpr, hk⟩ := hblock
    exact ⟨_, discardStep_block h hr hpr (hp p hpr) hk⟩
  · exact ⟨_, discardStep_else h hr (fun p body hpr hk => hblock ⟨p, body, hpr, hk⟩) hp⟩

theorem DiscardStep.kept (h : DiscardStep x y t width r e) {i : Id} (hi : i < x.size) (hir : i ≠ r)
    (hp : x.parent? r ≠ some i) : y.kind i = x.kind i := by
  rcases h.place with ⟨p, body, hpr, -, -, -, hkept⟩ | ⟨-, -, -, hkept⟩
  · refine hkept i hi hir ?_
    rintro rfl
    exact hp hpr
  · exact hkept i hi hir

/-! ## Several returns -/

/-- What a return of `g` has become in `x`. -/
structure Placed (g x : Graph) (t : Ty) (width : Nat) (r : Id) (e : Exit) : Prop where
  fresh : g.size ≤ e.discard ∧ e.discard < x.size
  discard : x.kind e.discard = .discard
  value : ∃ first, g.size ≤ first ∧ first + (zeroNodes t width first).length ≤ x.size ∧
    x.HasZero t width first ∧ e.value = first + ((zeroNodes t width first).length - 1)
  ret : x.kind e.ret = .ret (some e.value)
  inBlock : g.InBlock r → e.ret = r
  alone : ¬ g.InBlock r →
    (g.size ≤ e.ret ∧ e.ret < x.size) ∧ x.kind r = .block [e.discard, e.ret]

/-- What a return has become stays while new nodes do. -/
theorem Placed.mono (h : Placed g x t width r e) (hsize : x.size ≤ y.size)
    (hnew : ∀ i, g.size ≤ i → i < x.size → y.kind i = x.kind i ∧ y.ty? i = x.ty? i)
    (hr : y.kind r = x.kind r) : Placed g y t width r e := by
  refine ⟨⟨h.fresh.1, h.fresh.2.trans_le hsize⟩, ?_, ?_, ?_, h.inBlock, fun hb => ?_⟩
  · rw [(hnew _ h.fresh.1 h.fresh.2).1, h.discard]
  · obtain ⟨first, hle, hlt, hzero, hvalue⟩ := h.value
    exact ⟨first, hle, hlt.trans hsize,
      hzero.mono fun i hi hi' => hnew i (hle.trans hi) (hi'.trans_le hlt), hvalue⟩
  · rw [← h.ret]
    by_cases hb : g.InBlock r
    · rw [h.inBlock hb, hr]
    · exact (hnew _ (h.alone hb).1.1 (h.alone hb).1.2).1
  · rw [hr]
    exact ⟨⟨(h.alone hb).1.1, (h.alone hb).1.2.trans_le hsize⟩, (h.alone hb).2⟩

/-- A statement with what is put before it. -/
def withDiscard (rs : List Id) (e : Id → Exit) (s : Id) : List Id :=
  if s ∈ rs then [(e s).discard, s] else [s]

theorem flatMap_eq_self {l : List Id} {f : Id → List Id} (hf : ∀ s ∈ l, f s = [s]) :
    l.flatMap f = l := by
  conv_rhs => rw [← List.flatMap_singleton' l]
  exact List.flatMap_congr hf

theorem flatMap_withDiscard_of_notMem {l rs : List Id} {e : Id → Exit} (hl : ∀ s ∈ l, s ∉ rs) :
    l.flatMap (withDiscard rs e) = l :=
  flatMap_eq_self fun s hs => if_neg (hl s hs)

theorem flatMap_of_notMem {l : List Id} (hr : r ∉ l) (a : Id) :
    (l.flatMap fun s => if s = r then [a, s] else [s]) = l := by
  refine flatMap_eq_self fun s hs => if_neg ?_
  rintro rfl
  exact hr hs

/-- After the returns of a list have been treated. -/
structure Treated (g x : Graph) (t : Ty) (width : Nat) (rs : List Id) (e : Id → Exit) : Prop where
  bare : ∀ r ∈ rs, g.kind r = .ret none
  placed : ∀ r ∈ rs, Placed g x t width r (e r)
  body : ∀ p ∈ g.live, ∀ body, g.kind p = .block body →
    x.kind p = .block (body.flatMap (withDiscard rs e))
  other : ∀ i < g.size, i ∉ rs → (∀ body, g.kind i ≠ .block body) → x.kind i = g.kind i
  new : ∀ i, g.size ≤ i → x.kind i ≠ .ret none

theorem treated_nil (g : Graph) (t : Ty) (width : Nat) (e : Id → Exit) :
    Treated g g t width [] e := by
  refine ⟨nofun, nofun, fun p _ body hk => ?_, fun _ _ _ _ => rfl, fun i hi => ?_⟩
  · rw [hk, flatMap_withDiscard_of_notMem fun _ _ => List.not_mem_nil]
  · unfold kind
    rw [node_of_size_le hi]
    exact nofun

theorem insertIdx_idxOf {l : List Id} (hl : l.Nodup) (hr : r ∈ l) (a : Id) :
    l.insertIdx (l.idxOf r) a = l.flatMap fun s => if s = r then [a, s] else [s] := by
  induction l with
  | nil => cases hr
  | cons s l ih =>
    obtain ⟨hs, hl⟩ := List.nodup_cons.mp hl
    by_cases hsr : s = r
    · subst hsr
      rw [List.idxOf_cons_self, List.insertIdx_zero, List.flatMap_cons, if_pos rfl,
        flatMap_of_notMem hs]
      rfl
    · have hmem := (List.mem_cons.mp hr).resolve_left (Ne.symm hsr)
      rw [List.idxOf_cons_ne _ hsr, List.insertIdx_succ_cons, ih hl hmem, List.flatMap_cons,
        if_neg hsr]
      rfl

theorem flatMap_withDiscard {l rs : List Id} {exits : Id → Exit} (hnot : r ∉ rs)
    (hfresh : ∀ s ∈ rs, (exits s).discard ≠ r) :
    ((l.flatMap (withDiscard rs exits)).flatMap fun s => if s = r then [e.discard, s] else [s]) =
      l.flatMap (withDiscard (rs ++ [r]) (Function.update exits r e)) := by
  rw [List.flatMap_assoc]
  refine List.flatMap_congr fun s _ => ?_
  unfold withDiscard
  by_cases hs : s ∈ rs
  · have hsr : s ≠ r := fun he => hnot (he ▸ hs)
    simp [hs, hsr, hfresh s hs]
  · by_cases hsr : s = r
    · subst hsr
      simp [hs]
    · simp [hs, hsr]

namespace Treated

variable {rs : List Id} {exits : Id → Exit} (h : Treated g x t width rs exits)
  (ht : g.IsTree) (hr : r ∈ g.live)

include h ht hr

/-- What is still a return without value has always been one and is not in the list. -/
theorem bare_of_bare (hk : x.kind r = .ret none) : r ∉ rs ∧ g.kind r = .ret none := by
  have hnot : r ∉ rs := by
    intro hmem
    have hplaced := h.placed r hmem
    by_cases hb : g.InBlock r
    · have hret := hplaced.ret
      rw [hplaced.inBlock hb, hk] at hret
      cases hret
    · have hblock := (hplaced.alone hb).2
      rw [hk] at hblock
      cases hblock
  refine ⟨hnot, ?_⟩
  by_cases hb : ∃ body, g.kind r = .block body
  · obtain ⟨body, hb⟩ := hb
    rw [h.body r hr body hb] at hk
    cases hk
  · rw [← h.other r (ht.lt_size hr) hnot fun body he => hb ⟨body, he⟩, hk]

theorem parent_notMem (hp : g.parent? r = some p) : p ∈ g.live ∧ p ∉ rs := by
  obtain ⟨hpl, hc⟩ := ht.parent_live hr hp
  refine ⟨hpl, fun hmem => ?_⟩
  rw [children, h.bare p hmem] at hc
  cases hc

variable (hx : DiscardsLowered g x)

include hx

theorem inBlock_iff : x.InBlock r ↔ g.InBlock r := by
  unfold InBlock
  rw [hx.parent r (ht.lt_size hr)]
  constructor
  · rintro ⟨p, body, hp, hk⟩
    obtain ⟨hpl, hnot⟩ := h.parent_notMem ht hr hp
    by_contra hno
    have hsame := h.other p (ht.lt_size hpl) hnot fun body hb => hno ⟨p, body, hp, hb⟩
    exact hno ⟨p, body, hp, hsame.symm.trans hk⟩
  · rintro ⟨p, body, hp, hk⟩
    exact ⟨p, _, hp, h.body p (ht.parent_live hr hp).1 body hk⟩

variable (hs : DiscardStep x y t width r e)

include hs

theorem placed_self : Placed g y t width r e := by
  have hsize := hx.lowered.size
  refine ⟨⟨hsize.trans hs.fresh.1, hs.fresh.2⟩, hs.discard,
    ⟨x.size, hsize, hs.size, hs.zero, hs.value⟩, hs.ret, fun hb => ?_, fun hb => ?_⟩
  · rcases hs.place with ⟨-, -, -, -, -, he, -⟩ | ⟨hno, -⟩
    · exact he
    · obtain ⟨p, body, hp, hk⟩ := (h.inBlock_iff ht hr hx).mpr hb
      exact absurd hk (hno p body hp)
  · rcases hs.place with ⟨p, body, hp, hk, -⟩ | ⟨-, hret, hk, -⟩
    · exact absurd ((h.inBlock_iff ht hr hx).mp ⟨p, body, hp, hk⟩) hb
    · exact ⟨⟨hsize.trans hret.1, hret.2⟩, hk⟩

theorem body_step (hnot : r ∉ rs) (hk : g.kind r = .ret none) (hp : p ∈ g.live) {body : List Id}
    (hkp : g.kind p = .block body) :
    y.kind p = .block (body.flatMap (withDiscard (rs ++ [r]) (Function.update exits r e))) := by
  have hrlt := ht.lt_size hr
  have hparent := hx.parent r hrlt
  have hfresh : ∀ s ∈ rs, (exits s).discard ≠ r := fun s hs =>
    (hrlt.trans_le (h.placed s hs).fresh.1).ne'
  have hpr : p ≠ r := by
    rintro rfl
    rw [hk] at hkp
    cases hkp
  have hold := h.body p hp body hkp
  rw [← flatMap_withDiscard hnot hfresh]
  by_cases hheld : g.parent? r = some p
  · have hc : r ∈ g.children p := (ht.parent_live hr hheld).2
    rcases hs.place with ⟨q, body', hq, hkq, hyq, -⟩ | ⟨hno, -⟩
    · rw [hparent, hheld] at hq
      cases hq
      rw [hold] at hkq
      cases hkq
      have hnodup : (x.children p).Nodup := by
        obtain ⟨owner, hgrown⟩ := hx.lowered.grown
        refine hgrown.nodup p ?_
        rw [hgrown.old p (ht.lt_size hp)]
        exact hp
      have hmem := hx.kept p (ht.lt_size hp) r hc
      rw [children, hold] at hnodup hmem
      exact hyq.trans (congrArg Kind.block (insertIdx_idxOf hnodup hmem e.discard))
    · exact absurd hold (hno p _ (hparent.trans hheld))
  · have hmem : r ∉ body.flatMap (withDiscard rs exits) := by
      intro hmem
      obtain ⟨s, hsb, hmem⟩ := List.mem_flatMap.mp hmem
      have hsr : r ≠ s := by
        rintro rfl
        refine hheld (ht.parent_child p hp r ?_)
        rw [children, hkp]
        exact hsb
      unfold withDiscard at hmem
      split_ifs at hmem with hs
      · simp [(hfresh s hs).symm, hsr] at hmem
      · simp [hsr] at hmem
    rw [flatMap_of_notMem hmem, ← hold]
    exact hs.kept ((ht.lt_size hp).trans_le hx.lowered.size) hpr (hparent ▸ hheld)

/-- **One more return.** -/
theorem step (hnot : r ∉ rs) (hk : g.kind r = .ret none) :
    Treated g y t width (rs ++ [r]) (Function.update exits r e) := by
  have hsize := hx.lowered.size
  have hparent := hx.parent r (ht.lt_size hr)
  have hstays : ∀ i, g.size ≤ i → i < x.size → y.kind i = x.kind i := by
    intro i hle hi
    refine hs.kept hi ((ht.lt_size hr).trans_le hle).ne' fun hp => ?_
    rw [hparent] at hp
    exact not_lt.mpr hle (ht.lt_size (ht.parent_live hr hp).1)
  refine ⟨fun s hs => ?_, fun s hs' => ?_,
    fun p hp body hkp => h.body_step ht hr hx hs hnot hk hp hkp, fun i hi hmem hb => ?_,
    fun i hi => ?_⟩
  · rcases List.mem_append.mp hs with hs | hs
    · exact h.bare s hs
    · rw [List.mem_singleton.mp hs, hk]
  · rcases List.mem_append.mp hs' with hmem | hmem
    · have hsr : s ≠ r := fun he => hnot (he ▸ hmem)
      have hplaced := h.placed s hmem
      rw [Function.update_of_ne hsr]
      refine hplaced.mono hs.facts.size
        (fun i hle hi => ⟨hstays i hle hi, hs.facts.ty? hi⟩) ?_
      have hlt : s < g.size := lt_size_of_kind (h.bare s hmem ▸ nofun)
      refine hs.kept (hlt.trans_le hsize) hsr fun hp => ?_
      rw [hparent] at hp
      exact (h.parent_notMem ht hr hp).2 hmem
    · obtain rfl := List.mem_singleton.mp hmem
      rw [Function.update_self]
      exact h.placed_self ht hr hx hs
  · have hir : i ≠ r := by
      rintro rfl
      exact hmem (List.mem_append_right _ (List.mem_singleton_self i))
    have hsame := h.other i hi (fun hc => hmem (List.mem_append_left _ hc)) hb
    rw [← hsame]
    rcases hs.place with ⟨p, body, hp, hkp, -, -, hkept⟩ | ⟨-, -, -, hkept⟩
    · refine hkept i (hi.trans_le hsize) hir ?_
      rintro rfl
      exact hb body (hsame.symm.trans hkp)
    · exact hkept i (hi.trans_le hsize) hir
  · rcases Nat.lt_or_ge i x.size with hlt | hge
    · rw [hstays i hi hlt]
      exact h.new i hi
    · exact hs.new i hge

end Treated

/-- **All returns of a list.** -/
theorem exists_treated (ht : g.IsTree) {rs : List Id} (hlive : ∀ r ∈ rs, r ∈ g.live)
    (hrs : rs.Nodup) : ∃ exits, Treated g (rs.foldl (lowerDiscard t width) g) t width
      (rs.filter fun r => g.kind r == .ret none) exits := by
  induction rs using List.reverseRecOn with
  | nil => exact ⟨fun _ => default, treated_nil g t width _⟩
  | append_singleton rs r ih =>
    obtain ⟨hnodup, -, hdisjoint⟩ := List.nodup_append.mp hrs
    have hr := hlive r (List.mem_append_right _ (List.mem_singleton_self r))
    have hbefore : ∀ s ∈ rs, s ∈ g.live := fun s hs => hlive s (List.mem_append_left _ hs)
    have hx := discardsLowered_foldl ht hbefore t width
    obtain ⟨exits, h⟩ := ih hbefore hnodup
    rw [List.foldl_append, List.foldl_cons, List.foldl_nil, List.filter_append]
    have hnot : r ∉ rs.filter fun r => g.kind r == .ret none := fun hmem =>
      hdisjoint r (List.mem_filter.mp hmem).1 r (List.mem_singleton_self r) rfl
    by_cases hk : g.kind r = .ret none
    · have hkx : (rs.foldl (lowerDiscard t width) g).kind r = .ret none := by
        rw [h.other r (ht.lt_size hr) hnot (by rw [hk]; exact fun _ => nofun), hk]
      obtain ⟨e, hstep⟩ : ∃ e, DiscardStep _ (lowerDiscard t width _ r) t width r e := by
        refine exists_discardStep hkx ((ht.lt_size hr).trans_le hx.lowered.size) fun p hp => ?_
        rw [hx.parent r (ht.lt_size hr)] at hp
        exact (ht.lt_size (ht.parent_live hr hp).1).trans_le hx.lowered.size
      have hself : [r].filter (fun r => g.kind r == .ret none) = [r] := by simp [hk]
      rw [hself]
      exact ⟨_, h.step ht hr hx hstep hnot hk⟩
    · have hnone : [r].filter (fun r => g.kind r == .ret none) = [] := by simp [hk]
      rw [lowerDiscard_of_ne fun hkx => hk (h.bare_of_bare ht hr hkx).2, hnone, List.append_nil]
      exact ⟨exits, h⟩

end Graph

end ShaderScript
