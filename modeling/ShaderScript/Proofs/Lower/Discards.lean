import ShaderScript.Discard
import ShaderScript.Proofs.Lower.Steps

/-!
# Returns without value

A `return` without value becomes a `discard` and a `return` of zeros. Either both take its place in
a block of their own, or the `discard` is put before it in the block that holds it.

* `zeroNodes`: the nodes of the zero of a type.
* `Graph.lowerDiscard_cases`: what happens at one return.
* `DiscardsLowered.step`: one return.
* **`Graph.lowered_lowerDiscards`**, `Graph.children_lowerDiscards`: only returns and blocks change, and
  what they hold stays there.
-/

namespace ShaderScript

/-- Whether a node is a return or holds one. -/
def Kind.isExit : Kind → Bool
  | .ret _ | .block _ => true
  | _ => false

/-- The number zero. -/
def zeroNode : Node := { kind := .number "0", ty := some .float }

/-- The nodes of the zero of a type with the given number of components, numbered from `first` on.
The last one holds the others. -/
def zeroNodes (t : Ty) (width first : Nat) : List Node :=
  if width = 1 then [zeroNode]
  else { kind := .ident t.name, ty := some t } ::
    (List.replicate width zeroNode ++
      [{ kind := .call first (List.range' (first + 1) width), ty := some t }])

section Zeros

variable (t : Ty) (width first : Nat)

theorem zeroNodes_ne_nil : zeroNodes t width first ≠ [] := by
  unfold zeroNodes
  split_ifs <;> exact List.cons_ne_nil _ _

theorem flatMap_children_zeroNodes :
    ((zeroNodes t width first).map Node.kind).flatMap Kind.children =
      List.range' first ((zeroNodes t width first).length - 1) := by
  unfold zeroNodes
  split_ifs with h
  · rfl
  · simp [zeroNode, Kind.children, List.range'_succ]

theorem zeroNodes_not_lasting {k : Kind} (hk : k ∈ (zeroNodes t width first).map Node.kind) :
    k.isLasting = false := by
  unfold zeroNodes at hk
  split_ifs at hk with h
  · obtain rfl := List.mem_singleton.mp hk
    rfl
  · simp only [List.map_cons, List.map_append, List.map_replicate, List.mem_cons, List.mem_append,
      List.mem_replicate] at hk
    rcases hk with rfl | ⟨-, rfl⟩ | rfl | hk
    · rfl
    · rfl
    · rfl
    · cases hk

theorem isReserved_of_mem_zeroNodes {name : String}
    (hk : .ident name ∈ (zeroNodes t width first).map Node.kind) :
    Known.isReserved name = true := by
  have htypes : ∀ t : Ty, Known.isReserved t.name = true := by
    intro t
    cases t <;> decide +kernel
  unfold zeroNodes at hk
  split_ifs at hk with h
  · simp [zeroNode] at hk
  · simp [zeroNode] at hk
    exact hk ▸ htypes t

theorem zeroNodes_plain {callee : Id} {args : List Id}
    (hk : .call callee args ∈ (zeroNodes t width first).map Node.kind) :
    callee = first ∧ ((zeroNodes t width first).map Node.kind)[0]? = some (.ident t.name) := by
  unfold zeroNodes at hk ⊢
  split_ifs at hk ⊢ with h
  · simp [zeroNode] at hk
  · simp [zeroNode] at hk ⊢
    exact hk.1

end Zeros

namespace Graph

variable {g x : Graph} {ret : Id} {t : Ty} {width : Nat}

theorem allocZeros_eq (n : Nat) (x : Graph) :
    allocZeros n x = (List.range' x.size n, x.add (List.replicate n zeroNode)) := by
  induction n generalizing x with
  | zero => simp [allocZeros, add_nil]
  | succ n ih =>
    simp only [allocZeros, allocZero, allocTyped_eq, ih, add_add, size_add]
    rfl

theorem allocZeroOf_eq (x : Graph) (t : Ty) (width : Nat) :
    x.allocZeroOf t width = (x.size + ((zeroNodes t width x.size).length - 1),
      x.add (zeroNodes t width x.size)) := by
  unfold allocZeroOf zeroNodes
  split_ifs with h
  · rw [allocZero, allocTyped_eq]
    rfl
  · simp only [allocTyped_eq, allocZeros_eq, add_add, size_add]
    simp [add, Nat.add_assoc]

/-- The number of the zero that is put somewhere. -/
def zeroAt (x : Graph) (t : Ty) (width : Nat) : Id :=
  x.size + ((zeroNodes t width x.size).length - 1)

theorem lowerDiscard_of_ne (h : x.kind ret ≠ .ret none) : lowerDiscard t width x ret = x := by
  unfold lowerDiscard
  split
  · contradiction
  · rfl

theorem lowerDiscard_block {p : Id} {body : List Id} (h : x.kind ret = .ret none)
    (hret : ret < x.size) (hp : x.parent? ret = some p) (hplt : p < x.size)
    (hk : x.kind p = .block body) :
    lowerDiscard t width x ret =
      (x.graft (zeroNodes t width x.size) ret (.ret (some (x.zeroAt t width)))).graft
        [{ kind := .discard }] p (.block (body.insertIdx (body.idxOf ret)
          (x.size + (zeroNodes t width x.size).length))) := by
  have hpr : p ≠ ret := by
    rintro rfl
    rw [hk] at h
    cases h
  unfold lowerDiscard
  simp only [h, allocZeroOf_eq, alloc_eq, add_add, size_add]
  have hparent : (x.add (zeroNodes t width x.size ++ [{ kind := .discard }])).parent? ret =
      some p := by
    rw [parent?, node_add_of_lt _ hret]
    exact hp
  have hkind : (x.add (zeroNodes t width x.size ++ [{ kind := .discard }])).kind p =
      .block body := by
    rw [kind, node_add_of_lt _ hplt]
    exact hk
  rw [hparent, Option.map_some, hkind]
  dsimp only
  rw [graft, graft, replace_add _ _ (by rw [size_add]; exact Nat.lt_add_right _ hret), add_add,
    replace_comm _ hpr]
  rfl

theorem lowerDiscard_else (h : x.kind ret = .ret none) (hret : ret < x.size)
    (hk : ∀ p body, x.parent? ret = some p → x.kind p ≠ .block body)
    (hp : ∀ p, x.parent? ret = some p → p < x.size) :
    lowerDiscard t width x ret =
      x.graft (zeroNodes t width x.size ++
          [{ kind := .discard }, { kind := .ret (some (x.zeroAt t width)) }]) ret
        (.block [x.size + (zeroNodes t width x.size).length,
          x.size + (zeroNodes t width x.size).length + 1]) := by
  unfold lowerDiscard
  simp only [h, allocZeroOf_eq, alloc_eq, add_add, size_add]
  have hparent : (x.add (zeroNodes t width x.size ++ [{ kind := .discard }])).parent? ret =
      x.parent? ret := by
    rw [parent?, node_add_of_lt _ hret]
    rfl
  rw [hparent]
  split
  case h_1 p body he =>
    obtain ⟨q, hq, hpq⟩ := Option.map_eq_some_iff.mp he
    obtain ⟨rfl, hqk⟩ := Prod.mk.inj hpq
    rw [kind, node_add_of_lt _ (hp q hq)] at hqk
    exact absurd hqk (hk q body hq)
  case h_2 =>
    rw [graft, List.append_assoc, List.length_append, ← Nat.add_assoc]
    rfl

/-! ## What is put where fits there -/

theorem range'_zeroAt (x : Graph) (t : Ty) (width : Nat) :
    List.range' x.size (zeroNodes t width x.size).length =
      List.range' x.size ((zeroNodes t width x.size).length - 1) ++ [x.zeroAt t width] := by
  obtain ⟨n, hn⟩ := Nat.exists_eq_add_one.mpr
    (List.length_pos_iff.mpr (zeroNodes_ne_nil t width x.size))
  unfold zeroAt
  rw [hn, List.range'_1_concat]
  rfl

theorem fits_return (x : Graph) (t : Ty) (width : Nat) (parts : List Id) :
    Fits parts x.size
      (.ret (some (x.zeroAt t width)) :: (zeroNodes t width x.size).map Node.kind) := by
  refine .of_perm (List.range' x.size (zeroNodes t width x.size).length) [] ?_
    (List.nil_sublist _) List.nodup_range' fun c hc => ?_
  · rw [List.flatMap_cons, flatMap_children_zeroNodes, List.append_nil, range'_zeroAt]
    exact List.perm_append_comm
  · rw [List.mem_range'_1] at hc
    rw [List.length_cons, List.length_map]
    omega

theorem fits_block (x : Graph) (body : List Id) (n : Nat) (hn : n ≤ body.length) :
    Fits body x.size [.block (body.insertIdx n x.size), .discard] := by
  refine .of_perm [x.size] body ?_ (List.Sublist.refl _) ?_ ?_
  · simpa [Kind.children] using List.perm_insertIdx x.size body hn
  · exact List.nodup_singleton _
  · simp

theorem fits_ownBlock (x : Graph) (t : Ty) (width : Nat) (parts : List Id) :
    Fits parts x.size
      (.block [x.size + (zeroNodes t width x.size).length,
          x.size + (zeroNodes t width x.size).length + 1] ::
        ((zeroNodes t width x.size).map Node.kind ++
          [.discard, .ret (some (x.zeroAt t width))])) := by
  refine .of_perm (List.range' x.size ((zeroNodes t width x.size).length + 2)) [] ?_
    (List.nil_sublist _) List.nodup_range' fun c hc => ?_
  · rw [List.flatMap_cons, List.flatMap_append, flatMap_children_zeroNodes, List.append_nil,
      List.range'_1_concat, List.range'_1_concat, range'_zeroAt, List.append_assoc _ [_] [_]]
    exact List.perm_append_comm
  · rw [List.mem_range'_1] at hc
    rw [List.length_cons, List.length_append, List.length_map]
    simp only [List.length_cons, List.length_nil]
    omega

/-! ## One return and all of them -/

/-- What holds after some returns have been treated. -/
structure DiscardsLowered (g x : Graph) : Prop where
  lowered : Lowered Kind.isExit g x
  parent : ∀ i < g.size, x.parent? i = g.parent? i
  kept : ∀ i < g.size, ∀ c ∈ g.children i, c ∈ x.children i

theorem isExit_lowerable (k : Kind) (hk : k.isExit = true) :
    k.isLasting = false ∧ k.isIdent = false := by
  cases k <;> first | exact ⟨rfl, rfl⟩ | cases hk

theorem allowed_zeroNodes (x : Graph) (t : Ty) (width : Nat) {k : Kind} {ms : List Node}
    (hk : k.isExit = true)
    (hms : ∀ n ∈ ms, n.kind.isExit = true ∨ n.kind = .discard) :
    Lowered.Allowed x (zeroNodes t width x.size ++ ms) k := by
  have exit_call : ∀ {k : Kind}, k.isExit = true → ∀ callee args, k ≠ .call callee args := by
    rintro k hk callee args rfl
    cases hk
  refine ⟨fun k' hk' => ?_, ?_, fun name hname => ?_, ?_⟩
  · rcases List.mem_cons.mp hk' with rfl | hk'
    · exact (isExit_lowerable _ hk).1
    · rw [List.map_append] at hk'
      rcases List.mem_append.mp hk' with hk' | hk'
      · exact zeroNodes_not_lasting t width x.size hk'
      · obtain ⟨n, hn, rfl⟩ := List.mem_map.mp hk'
        rcases hms n hn with hn | hn
        · exact (isExit_lowerable _ hn).1
        · rw [hn]
          rfl
  · cases k <;> first | rfl | cases hk
  · rw [List.map_append] at hname
    rcases List.mem_append.mp hname with hname | hname
    · exact isReserved_of_mem_zeroNodes t width x.size hname
    · obtain ⟨n, hn, hnk⟩ := List.mem_map.mp hname
      rcases hms n hn with hn | hn <;> rw [hnk] at hn <;> cases hn
  · rintro k' hk' callee args rfl
    rcases List.mem_cons.mp hk' with rfl | hk'
    · exact absurd rfl (exit_call hk callee args)
    · rw [List.map_append] at hk'
      rcases List.mem_append.mp hk' with hk' | hk'
      · obtain ⟨rfl, hname⟩ := zeroNodes_plain t width x.size hk'
        refine ⟨0, t.name, rfl, ?_⟩
        obtain ⟨n, hn, hnk⟩ := Option.map_eq_some_iff.mp ((List.getElem?_map ..) ▸ hname)
        rw [List.getD_eq_getElem?_getD, List.getElem?_append_left
          (List.length_pos_iff.mpr (zeroNodes_ne_nil t width x.size)), hn, Option.getD_some, hnk]
      · obtain ⟨n, hn, hnk⟩ := List.mem_map.mp hk'
        rcases hms n hn with hn | hn
        · exact absurd hnk (exit_call hn callee args)
        · rw [hn] at hnk
          cases hnk

namespace DiscardsLowered

variable (h : DiscardsLowered g x) (ht : g.IsTree)

include h in
theorem graft {site : Id} {ns : List Node} {k : Kind}
    (hlow : Lowered Kind.isExit g (x.graft ns site k))
    (hkept : ∀ c ∈ x.children site, c ∈ k.children) :
    DiscardsLowered g (x.graft ns site k) := by
  refine ⟨hlow, fun i hi => ?_, fun i hi c hc => ?_⟩
  · exact (parent?_graft_of_lt (hi.trans_le h.lowered.size)).trans (h.parent i hi)
  · have hlt : i < x.size := hi.trans_le h.lowered.size
    by_cases hne : i = site
    · subst hne
      rw [children, kind_graft_site hlt]
      exact hkept c (h.kept i hi c hc)
    · rw [children_graft_of_lt hlt hne]
      exact h.kept i hi c hc

include h ht

/-- **One return**: only it and the block that holds it change. -/
theorem step (hret : ret ∈ g.live) : DiscardsLowered g (lowerDiscard t width x ret) := by
  by_cases hk : x.kind ret = .ret none
  · have hlt : ret < g.size := ht.lt_size hret
    have hltx : ret < x.size := hlt.trans_le h.lowered.size
    -- what is a return or a block now has always been one of them
    have exit_of : ∀ {i}, i < g.size → (x.kind i).isExit = true → (g.kind i).isExit = true := by
      intro i hi hx
      by_contra hno
      rw [h.lowered.other i hi (Bool.eq_false_iff.mpr hno)] at hx
      exact hno hx
    have hexit := exit_of hlt (by rw [hk]; rfl)
    have hnone : ∀ {l : Kind}, ∀ c ∈ x.children ret, c ∈ l.children := by
      intro l c hc
      rw [children, hk] at hc
      cases hc
    by_cases hblock : ∃ p body, x.parent? ret = some p ∧ x.kind p = .block body
    · obtain ⟨p, body, hp, hkp⟩ := hblock
      have hpl : p ∈ g.live := (ht.parent_live hret ((h.parent ret hlt).symm.trans hp)).1
      have hplt : p < g.size := ht.lt_size hpl
      have hpltx : p < x.size := hplt.trans_le h.lowered.size
      have hne : p ≠ ret := by
        rintro rfl
        rw [hk] at hkp
        cases hkp
      rw [lowerDiscard_block hk hltx hp hpltx hkp]
      have hfirst : Lowered Kind.isExit g (x.graft (zeroNodes t width x.size) ret
          (.ret (some (x.zeroAt t width)))) := by
        have hallow : Lowered.Allowed x (zeroNodes t width x.size ++ [])
            (.ret (some (x.zeroAt t width))) :=
          allowed_zeroNodes x t width rfl fun n hn => by cases hn
        rw [List.append_nil] at hallow
        exact h.lowered.graft isExit_lowerable hexit hlt hret (fits_return x t width _) hallow
      have hbody : (x.graft (zeroNodes t width x.size) ret
          (.ret (some (x.zeroAt t width)))).children p = body := by
        rw [children_graft_of_lt hpltx hne, children, hkp]
        rfl
      refine (h.graft hfirst hnone).graft (hfirst.graft isExit_lowerable
        (exit_of hplt (by rw [hkp]; rfl)) hplt hpl ?_ ⟨?_, rfl, ?_, ?_⟩) fun c hc => ?_
      · rw [hbody]
        have hfit := fits_block (x.graft (zeroNodes t width x.size) ret
          (.ret (some (x.zeroAt t width)))) body (body.idxOf ret) List.idxOf_le_length
        rw [size_graft] at hfit ⊢
        exact hfit
      · simp [Kind.isLasting]
      · simp
      · simp
      · rw [hbody] at hc
        exact (List.mem_insertIdx List.idxOf_le_length).mpr (.inr hc)
    · rw [lowerDiscard_else hk hltx (fun p body hp hkp => hblock ⟨p, body, hp, hkp⟩) fun p hp =>
        (ht.lt_size (ht.parent_live hret ((h.parent ret hlt).symm.trans hp)).1).trans_le
          h.lowered.size]
      refine h.graft (h.lowered.graft isExit_lowerable hexit hlt hret ?_
        (allowed_zeroNodes x t width rfl ?_)) hnone
      · rw [List.map_append]
        exact fits_ownBlock x t width _
      · simp [Kind.isExit]
  · rw [lowerDiscard_of_ne hk]
    exact h

end DiscardsLowered

theorem live_of_mem_returns (ht : g.IsTree) {f : Id} (hf : f ∈ g.live) (hret : ret ∈ g.returns f) :
    ret ∈ g.live := by
  have hmem : ret ∈ g.descendants f := (List.mem_filter.mp hret).1
  obtain ⟨d, hd⟩ := (ht.mem_descendants_iff hf).mp hmem
  exact ht.live_of_below hf hd

theorem discardsLowered_foldl (ht : g.IsTree) {rets : List Id} (hrets : ∀ ret ∈ rets, ret ∈ g.live)
    (t : Ty) (width : Nat) : DiscardsLowered g (rets.foldl (lowerDiscard t width) g) :=
  List.foldlRecOn (motive := DiscardsLowered g) rets _
    ⟨.start ht, fun _ _ => rfl, fun _ _ _ hc => hc⟩ fun _ hx ret hret => hx.step ht (hrets ret hret)

/-- **Lowering returns changes returns and blocks only.** -/
theorem lowered_lowerDiscards (ht : g.IsTree) {f : Id} (hf : f ∈ g.live) :
    Lowered Kind.isExit g (g.lowerDiscards f) := by
  unfold lowerDiscards
  split
  case h_2 => exact .start ht
  case h_1 =>
    dsimp only
    split
    case h_2 => exact .start ht
    case h_1 width _ =>
      exact (discardsLowered_foldl ht (fun _ => live_of_mem_returns ht hf) _ width).lowered.sameShape
        (sameShape_link _)

theorem children_lowerDiscards (ht : g.IsTree) {f : Id} (hf : f ∈ g.live) {i c : Id}
    (hc : c ∈ g.children i) : c ∈ (g.lowerDiscards f).children i := by
  unfold lowerDiscards
  split
  case h_2 => exact hc
  case h_1 =>
    dsimp only
    split
    case h_2 => exact hc
    case h_1 width _ =>
      rw [(sameShape_link _).children]
      exact (discardsLowered_foldl ht (fun _ => live_of_mem_returns ht hf) _ width).kept i
        (lt_size_of_mem_children hc) c hc

end Graph

end ShaderScript
