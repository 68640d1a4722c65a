import ShaderScript.Builder
import ShaderScript.Proofs.Compile.Passes
import ShaderScript.Proofs.Graph.Subtree
import ShaderScript.Proofs.Infer.WriteOnce
import ShaderScript.Proofs.Lower.Blocks
import ShaderScript.Proofs.Renumber.Compact

/-!
# Calls are written in place

Writing the calls of known functions in their forms changes these calls and nothing else, however
they are nested. Their arguments stay in the program in the order of the calls, but for first
arguments that would be assigned and cannot be, and the new nodes have the types of the calls.

* `Graph.Block.filter_descendants`, `Graph.Block.filter_live`: where the arguments of a call stand
  afterwards.
* `Graph.Leads.live`: a new node is part of the program only with its call.
* `Graph.CallsWritten`: a program, the program with types, and what has become of that.
* `Graph.WrittenInPlace`: what changes and what does not.
* **`lowerCalls_inPlace`**: calls are written in place.
-/

namespace ShaderScript

namespace Graph

variable {g x : Graph} {c : Id}

/-! ## What lies below a call afterwards -/

section Subtrees

variable {owner : Id → Id} (hg : Grown g x owner) (ht : g.IsTree) (hc : c ∈ g.live)

include hg ht hc

theorem Grown.eq_of_below {a b : Id} {d : Nat} (ha : a ∈ g.children c) (hb : b ∈ g.children c)
    (hd : x.Below a d b) : a = b := by
  have hal := ht.child_live hc ha
  have hbl := ht.child_live hc hb
  obtain ⟨-, d', hd'⟩ := hg.below ht (by rwa [hg.old a (ht.lt_size hal)]) hd
  rw [hg.old a (ht.lt_size hal), hg.old b (ht.lt_size hbl)] at hd'
  exact ht.unshared.child_unique hc ha hb ((ht.mem_descendants_iff hal).mpr ⟨d', hd'⟩)
    ((ht.mem_descendants_iff hbl).mpr ⟨0, .refl⟩)

/-- An argument of a call has no other one below it. -/
theorem Grown.filter_descendants {args : List Id} (hargs : ∀ a ∈ args, a ∈ g.children c) {a : Id}
    (ha : a ∈ args) (hal : a ∈ x.live) : (x.descendants a).filter (· ∈ args) = [a] := by
  have hx := hg.unshared ht
  rw [hx.descendants_eq hal, List.filter_cons, if_pos (decide_eq_true ha),
    List.filter_eq_nil_iff.mpr]
  intro b hb hbargs
  have hbargs := of_decide_eq_true hbargs
  obtain ⟨q, hq, hbq⟩ := List.mem_flatMap.mp hb
  obtain ⟨d, hd⟩ := (hx.mem_descendants_iff (hx.child_live hal hq)).mp hbq
  obtain rfl := hg.eq_of_below ht hc (hargs a ha) (hargs b hbargs) (hd.cons hq)
  exact hx.notMem_descendants_child hal hq hbq

variable {form : Known.Form} {callee : Id} {args : List Id} {first : Nat} {k : Kind}
  {ks : List Kind} (hb : Block g x c form args first k ks) (hk : g.kind c = .call callee args)

include hb hk

/-- **Below a call that has been written stand the arguments that are kept**, each once and in their
order. -/
theorem Block.filter_descendants (hsplice : form.isSplice = true → args = []) (hcx : c ∈ x.live) :
    (x.descendants c).filter (· ∈ args) = form.kept g.isAssignable args := by
  have hx := hg.unshared ht
  have hparts : ∀ q ∈ callee :: args, q ∈ g.children c := fun q hq => by
    rw [children, hk]
    exact hq
  have hargs : ∀ a ∈ args, a ∈ g.children c := fun a ha => hparts a (List.mem_cons_of_mem _ ha)
  have hlt : ∀ q ∈ callee :: args, q < g.size := fun q hq => ht.child_lt c hc q (hparts q hq)
  have halt : ∀ a ∈ args, a < g.size := fun a ha => hlt a (List.mem_cons_of_mem _ ha)
  have hself : c ∉ args := fun ha =>
    ht.unshared.notMem_descendants_child hc (hargs c ha)
      ((ht.mem_descendants_iff hc).mpr ⟨0, .refl⟩)
  have hkept : ∀ q ∈ x.operands g.size c, q ∈ args := by
    rw [hb.operands halt hsplice]
    exact (form.kept_sublist g.isAssignable args).subset
  have old : ∀ q ∈ x.live, q < g.size → q ∈ x.operands g.size c →
      (x.descendants q).filter (· ∈ args) = [q].filter (· < g.size) := fun q hq hqlt hop => by
    rw [hg.filter_descendants ht hc hargs (hkept q hop) hq, List.filter_cons,
      if_pos (decide_eq_true hqlt), List.filter_nil]
  have new : ∀ q, g.size ≤ q → q ∉ args := fun q hle ha => not_lt.mpr hle (halt q ha)
  rw [← hb.operands halt hsplice, hx.filter_descendants hcx hself]
  conv_rhs => rw [Graph.operands, List.filter_flatMap]
  refine List.flatMap_congr fun q hq => ?_
  have hql := hx.child_live hcx hq
  rcases Nat.lt_or_ge q g.size with hqlt | hqge
  · rw [parts_of_lt hqlt]
    refine old q hql hqlt (List.mem_filter.mpr ⟨List.mem_flatMap.mpr ⟨q, hq, ?_⟩, ?_⟩)
    · rw [parts_of_lt hqlt]
      exact List.mem_singleton_self q
    · exact decide_eq_true hqlt
  · -- a new node stands for what it holds: arguments, and at most one more new node without parts
    rw [hx.filter_descendants hql (new q hqge), parts_of_le hqge]
    conv_rhs => rw [← List.flatMap_singleton' (x.children q), List.filter_flatMap]
    refine List.flatMap_congr fun r hr => ?_
    have hrl := hx.child_live hql hr
    rcases Nat.lt_or_ge r g.size with hrlt | hrge
    · refine old r hrl hrlt (List.mem_filter.mpr ⟨List.mem_flatMap.mpr ⟨q, hq, ?_⟩, ?_⟩)
      · rwa [parts_of_le hqge]
      · exact decide_eq_true hrlt
    · have hleaf : x.children r = [] := hb.children_eq_nil hlt hq hqge hr hrge
      rw [hx.filter_descendants hrl (new r hrge), hleaf, List.filter_cons,
        if_neg fun hlt => not_lt.mpr hrge (of_decide_eq_true hlt)]
      rfl

/-- **In the whole program the arguments that are kept stand once each and in their order**, if the
others are gone. -/
theorem Block.filter_live (hsplice : form.isSplice = true → args = []) (hx : x.IsTree)
    (hcx : c ∈ x.live) (hgone : ∀ a ∈ args, a ∉ form.kept g.isAssignable args → a ∉ x.live) :
    x.live.filter (· ∈ args) = form.kept g.isAssignable args := by
  have hsub : (form.kept g.isAssignable args).Sublist (x.live.filter (· ∈ args)) := by
    rw [← hb.filter_descendants hg ht hc hk hsplice hcx]
    exact (hx.unshared.descendants_sublist hcx).filter _
  refine (hsub.eq_of_length_le ((List.Nodup.subperm (hx.nodup_live.filter _) ?_).length_le)).symm
  intro a ha
  obtain ⟨hal, hargs⟩ := List.mem_filter.mp ha
  by_contra hnot
  exact hgone a (of_decide_eq_true hargs) hnot hal

end Subtrees

theorem Leads.owner {owner : Id → Id} {j : Id} (h : Leads g x c j) (hg : Grown g x owner)
    (ht : g.IsTree) (hc : c ∈ g.live) (hj : g.size ≤ j) : owner j = c := by
  have hold := hg.old c (ht.lt_size hc)
  have child_owner : ∀ {q i}, owner q = c → g.size ≤ i → i ∈ x.children q → owner i = c := by
    intro q i hq hi hiq
    rw [hg.child_new q (hq ▸ hc) i hiq hi, hq]
  rcases h with hjc | ⟨q, hq, hqc, hjq⟩
  · exact child_owner hold hj hjc
  · exact child_owner (child_owner hold hq hqc) hj hjq

theorem Leads.live {owner : Id → Id} {j : Id} (h : Leads g x c j) (hg : Grown g x owner)
    (ht : g.IsTree) (hc : c ∈ g.live) (hj : g.size ≤ j) (hjx : j ∈ x.live) : c ∈ x.live := by
  have hx := hg.unshared ht
  obtain ⟨d, -, hd⟩ := mem_walk.mp hjx
  rw [hg.root] at hd
  obtain ⟨⟨d', hd'⟩, -⟩ := hg.below_owner ht ht.root_live hd
  rw [h.owner hg ht hc hj, ← hg.root] at hd'
  exact hx.live_of_below (mem_walk.mpr ⟨0, hx.depth_lt .refl, .refl⟩) hd'

theorem Block.leads {form : Known.Form} {args : List Id} {first : Nat} {k : Kind} {ks : List Kind}
    (hb : Block g x c form args first k ks) {m : Nat} (hm : m < ks.length) :
    Leads g x c (first + m) := by
  unfold Leads children
  rw [hb.site]
  refine (hb.writes.holds_new hm).imp_right fun ⟨n, k', hn, hchild, hheld⟩ => ?_
  refine ⟨first + n, hb.le_new n, hchild, ?_⟩
  rwa [hb.kind_new n k' hn]

/-! ## A program with types -/

/-- The node is part of a first argument that has lost its place: the form of a call would assign
the result there, and that cannot be assigned. -/
def InDropped (g : Graph) (calls : CallTable) (i : Id) : Prop :=
  ∃ c e callee out rest, calls.known? c = some e ∧ g.kind c = .call callee (out :: rest) ∧
    e.form.isOut = true ∧ g.isAssignable out = false ∧ i ∈ g.descendants out

/-- Calls of known functions have been written in their forms in a program `g` with types, which has
become `x`, and everything else is left alone. -/
structure WrittenInPlace (g x : Graph) (calls : CallTable) : Prop where
  /-- Nothing becomes anything else but a call of a known function with a form of its own. -/
  kind_ne_iff : ∀ i < g.size, x.kind i ≠ g.kind i ↔
    ∃ e, calls.known? i = some e ∧ e.form.isWritten = true
  /-- What is attached to a node stays: its type, its hint, whether it is written to. -/
  facts : ∀ i < g.size, (x.node i).facts = (g.node i).facts
  /-- What was a call of a known function has the type that the function returns. -/
  ret : ∀ c e, calls.known? c = some e → x.ty? c = some e.ret
  /-- A new node stands below a call, at most below one other new node, and has its type. -/
  new : ∀ j, g.size ≤ j → j < x.size → ∃ c e, calls.known? c = some e ∧ e.form.isWritten = true ∧
    Leads g x c j ∧ (j ∈ x.live → c ∈ x.live) ∧ x.ty? j = some e.ret
  /-- Of what was there before a call holds the arguments that are kept, in their order. If the call
  is part of the program, each of these stands once in it, and the others do not. -/
  arguments : ∀ c e callee args, calls.known? c = some e → e.form.isWritten = true →
    g.kind c = .call callee args →
    x.operands g.size c = e.form.kept g.isAssignable args ∧
    (c ∈ x.live → x.live.filter (· ∈ args) = e.form.kept g.isAssignable args)
  /-- A call of a declared function stays as it is, and stays in the program unless it is part of an
  argument that does not. -/
  user : ∀ i f, calls.target? i = some (.user f) →
    x.kind i = g.kind i ∧ (i ∈ x.live ↔ ¬ g.InDropped calls i)

/-- The graph `k` is the program `g` with types, and `x` is what becomes of it when its calls have
been written in their forms. -/
structure CallsWritten (g k x : Graph) : Prop where
  source : g.IsTree
  same : SameShape g k
  tree : k.IsTree
  linked : x.IsTree
  arity : ∀ c ∈ g.live, ∀ e callee args, (CallTable.resolve g).known? c = some e →
    g.kind c = .call callee args → args.length = e.arity
  ret : ∀ c e, (CallTable.resolve g).known? c = some e → k.ty? c = some e.ret
  lowered : CallsLowered Kind.isCall k x (CallTable.resolve g).targets
  routed : Routed k x (CallTable.resolve g).targets
  formed : Formed k x (CallTable.resolve g).targets

namespace CallsWritten

variable {k : Graph} (h : CallsWritten g k x) {e : Known.Entry} {callee : Id} {args : List Id}

include h

theorem call_of_target {t : Target} (ht : (CallTable.resolve g).target? c = some t) :
    c ∈ k.live ∧ ∃ callee args, k.kind c = .call callee args := by
  obtain ⟨hc, callee, args, hk, -⟩ := CallTable.target?_call ht
  exact ⟨h.same.live ▸ hc, callee, args, (h.same.kind c).trans hk⟩

theorem block (hknown : (CallTable.resolve g).known? c = some e) (hw : e.form.isWritten = true)
    (hk : k.kind c = .call callee args) : e.Puts args ∧
    (e.form.isSplice = true → args = []) ∧ ∃ first k' ks, Block k x c e.form args first k' ks := by
  have hmem := CallTable.mem_targets.mpr (CallTable.known?_eq_some.mp hknown)
  obtain ⟨hc, -, he⟩ := target_call hmem
  have hlen := h.arity c hc e callee args hknown ((h.same.kind c).symm.trans hk)
  have hputs := Known.Entry.puts (he e rfl) hlen hw
  refine ⟨hputs, fun hsplice => ?_, h.formed.block c e callee args hmem hk hputs⟩
  rw [Known.arity_of_isSplice (he e rfl) hsplice] at hlen
  exact List.eq_nil_of_length_eq_zero hlen

theorem part_lt (hc : c ∈ k.live) (hk : k.kind c = .call callee args) :
    ∀ q ∈ callee :: args, q < k.size := fun q hq =>
  h.tree.child_lt c hc q (by rw [children, hk]; exact hq)

theorem kind_ne_iff {i : Id} (hi : i < k.size) : x.kind i ≠ k.kind i ↔
    ∃ e, (CallTable.resolve g).known? i = some e ∧ e.form.isWritten = true := by
  constructor
  · intro hne
    by_contra hno
    cases hk : k.kind i with
    | call callee args =>
      refine hne (h.lowered.same i callee args hk fun e hmem hputs => hno ⟨e, ?_, ?_⟩)
      · exact CallTable.known?_eq_some.mpr (CallTable.mem_targets.mp hmem)
      · exact Known.Form.isWritten_of_takes hputs.2
    | _ => exact hne (h.lowered.lowered.other i hi (by rw [hk]; rfl))
  · rintro ⟨e, hknown, hw⟩
    obtain ⟨hc, callee, args, hk⟩ := h.call_of_target (CallTable.known?_eq_some.mp hknown)
    obtain ⟨-, -, first, k', ks, hb⟩ := h.block hknown hw hk
    have hcallee := (h.part_lt hc hk callee List.mem_cons_self).trans_le hb.old_le
    rw [hb.site, hk]
    exact hb.writes.head_ne hcallee args

theorem new_leads {j : Id} (hj : k.size ≤ j) (hjx : j < x.size) :
    ∃ c e, (CallTable.resolve g).known? c = some e ∧ e.form.isWritten = true ∧
      Leads k x c j ∧ (j ∈ x.live → c ∈ x.live) ∧ x.ty? j = some e.ret := by
  obtain ⟨owner, hg⟩ := h.lowered.lowered.grown
  obtain ⟨c, first, ks, ⟨e, callee, args, k', hmem, hk, hputs, hb⟩, m, hm, rfl⟩ :=
    h.formed.new j hj hjx
  have htarget := CallTable.mem_targets.mp hmem
  have hknown := CallTable.known?_eq_some.mpr htarget
  obtain ⟨hc, -⟩ := h.call_of_target htarget
  have hleads := hb.leads hm
  refine ⟨c, e, hknown, Known.Form.isWritten_of_takes hputs.2, hleads,
    hleads.live hg h.tree hc hj, ?_⟩
  rw [hb.ty_new m hm, h.ret c e hknown]

omit h in
/-- An argument that is not kept has lost its place. -/
theorem dropsOut_of_notMem_kept (hknown : (CallTable.resolve g).known? c = some e)
    (hputs : e.Puts args) (hk : k.kind c = .call callee args) {a : Id} (ha : a ∈ args)
    (hnot : a ∉ e.form.kept k.isAssignable args) :
    DropsOut k (CallTable.resolve g).targets c a := by
  obtain ⟨rest, rfl, hout, hna⟩ := Known.Form.of_notMem_kept ha hnot
  exact ⟨e, callee, rest, CallTable.mem_targets.mpr (CallTable.known?_eq_some.mp hknown), hk,
    hputs, hout, hna⟩

theorem arguments (hknown : (CallTable.resolve g).known? c = some e)
    (hw : e.form.isWritten = true) (hk : k.kind c = .call callee args) :
    x.operands k.size c = e.form.kept k.isAssignable args ∧
    (c ∈ x.live → x.live.filter (· ∈ args) = e.form.kept k.isAssignable args) := by
  obtain ⟨owner, hg⟩ := h.lowered.lowered.grown
  obtain ⟨hc, -⟩ := h.call_of_target (CallTable.known?_eq_some.mp hknown)
  obtain ⟨hputs, hsplice, first, k', ks, hb⟩ := h.block hknown hw hk
  refine ⟨hb.operands (fun a ha => h.part_lt hc hk a (List.mem_cons_of_mem _ ha)) hsplice,
    fun hcx => hb.filter_live hg h.tree hc hk hsplice h.linked hcx fun a ha hnot hal => ?_⟩
  obtain ⟨d, hd⟩ := h.linked.mem_live_iff.mp hal
  exact h.routed.unreached h.lowered.lowered h.tree hc
    (dropsOut_of_notMem_kept hknown hputs hk ha hnot) hd

theorem not_below_callee {i : Id} (hi : (k.kind i).isCall = true) {q : Id} {d : Nat}
    (hdrops : DropsCallee k (CallTable.resolve g).targets c q) : ¬ k.Below q d i := by
  obtain ⟨e, -, hpath⟩ := dottedPath?_of_dropsCallee h.same hdrops
  intro hbelow
  rw [h.same.kind] at hi
  rcases kind_of_below_path hpath (h.same.below hbelow) with ⟨name, hk, -⟩ | ⟨o, p, hk⟩
  · rw [hk] at hi
    cases hi
  · rw [hk] at hi
    cases hi

theorem inDropped_iff {i : Id} : k.InDropped (.resolve g) i ↔ ∃ c ∈ k.live, ∃ q d,
    DropsOut k (CallTable.resolve g).targets c q ∧ k.Below q d i := by
  rw [below_dropsOut_iff h.source h.same h.arity]
  simp only [InDropped, CallTable.known?_eq_some, h.same.kind, h.same.isAssignable,
    h.same.descendants]

theorem user {i f : Id} (ht : (CallTable.resolve g).target? i = some (.user f)) :
    x.kind i = k.kind i ∧ (i ∈ x.live ↔ ¬ k.InDropped (.resolve g) i) := by
  obtain ⟨hi, callee, args, hk⟩ := h.call_of_target ht
  constructor
  · by_contra hne
    obtain ⟨e, hknown, -⟩ := (h.kind_ne_iff (h.tree.lt_size hi)).mp hne
    rw [CallTable.known?_eq_some, ht] at hknown
    cases hknown
  · rw [h.linked.mem_live_iff, h.routed.reached_iff h.lowered.lowered h.tree hi
      fun c q d hdrops => h.not_below_callee (by rw [hk]; rfl) hdrops, h.inDropped_iff]
    constructor
    · rintro hnone ⟨c, hc, q, d, hdrops, hd⟩
      exact hnone c hc q d hdrops hd
    · exact fun hnone c hc q d hdrops hd => hnone ⟨c, hc, q, d, hdrops, hd⟩

end CallsWritten

section Program

variable (h : g.IsTree) (hok : (infer g (.resolve g)).failure = none)

include h hok

theorem ty?_of_known {c : Id} {e : Known.Entry} (hknown : (CallTable.resolve g).known? c = some e) :
    (infer g (.resolve g)).graph.ty? c = some e.ret := by
  obtain ⟨hc, callee, args, hk, -⟩ := CallTable.target?_call (CallTable.known?_eq_some.mp hknown)
  have hmem : .hasType c e.ret ∈ (Infer.Context.of g (.resolve g)).evidence :=
    Infer.Context.mem_evidence.mpr ⟨c, hc, .inr (.inl (Infer.Context.mem_callEvidence.mpr
      ⟨e, callee, args, hknown, hk, .inl rfl⟩))⟩
  exact infer_typed hok _ hmem ((infer_attached hok).1.sameShape.size ▸ h.lt_size hc)

theorem callsWritten_lowerCalls : CallsWritten g (infer g (.resolve g)).graph
    ((infer g (.resolve g)).graph.lowerCalls (.resolve g)) := by
  have ht := isTree_infer h hok
  have hkeys := CallTable.nodup_keys_targets g
  have hts := fun q hq => target_call_infer (g := g) hok (q := q) hq
  have hlink := sameShape_link ((CallTable.resolve g).targets.foldl lowerTarget
    (infer g (.resolve g)).graph)
  obtain ⟨hchanged, harity⟩ := infer_attached hok
  have hcl := callsLowered_lowerCalls h hok
  refine ⟨h, hchanged.sameShape, ht, ?_, harity, fun c e => ty?_of_known h hok, hcl, ?_, ?_⟩
  · obtain ⟨owner, hg⟩ := hcl.lowered.grown
    exact ((hg.sameShape hlink.symm).unshared ht).isTree_link
  · exact ((Routed.start _).foldl ht Kind.isCall_spec (fun _ => id) (.start ht) hkeys
      hts).sameShape hlink
  · refine ((Formed.start _).foldl ht Kind.isCall_spec (fun _ => id) (.start ht) hkeys
      hts).sameShape hlink fun i => ?_
    exact part_link Node.ty (fun _ _ => rfl) _ i

end Program

end Graph

open Graph

/-- **Calls are written in place.** When inference has succeeded on a tree, writing its calls in
their forms changes calls of known functions only and keeps all facts. What was such a call has the
type that the function returns, and so have the nodes that it got. Arguments keep their order and
stand once each, but for those that would be assigned and cannot be, and calls of declared functions
stay as they are. -/
theorem lowerCalls_inPlace {g : Graph} (h : g.IsTree)
    (hok : (infer g (.resolve g)).failure = none) :
    WrittenInPlace (infer g (.resolve g)).graph
      ((infer g (.resolve g)).graph.lowerCalls (.resolve g)) (.resolve g) := by
  have hw := callsWritten_lowerCalls h hok
  have hext := extends_lowerCalls (infer g (.resolve g)).graph (.resolve g)
  refine ⟨fun i hi => hw.kind_ne_iff hi, hext.facts, fun c e hknown => ?_,
    fun j hj hjx => hw.new_leads hj hjx, fun c e callee args => hw.arguments,
    fun i f ht => hw.user ht⟩
  obtain ⟨hc, -⟩ := hw.call_of_target (CallTable.known?_eq_some.mp hknown)
  rw [hext.ty? (hw.tree.lt_size hc), hw.ret c e hknown]

/-- The program `function g(v) { return v; }` with
`function f(p) { return vec3.add(p, vec3.cross(g(p), vec3.clone(g(p)), p), p); }`. -/
def droppedCall : Graph := Build.finish do
  let method (name : String) : Build Id := do Build.field (← Build.ident "vec3") name
  let _ ← Build.function "g" ["v"] [← Build.ret (some (← Build.ident "v"))]
  let dropped ← Build.call (← Build.ident "g") [← Build.ident "p"]
  let kept ← Build.call (← Build.ident "g") [← Build.ident "p"]
  let clone ← Build.call (← method "clone") [kept]
  let cross ← Build.call (← method "cross") [dropped, clone, ← Build.ident "p"]
  let sum ← Build.call (← method "add") [← Build.ident "p", cross, ← Build.ident "p"]
  let _ ← Build.function "f" ["p"] [← Build.ret (some sum)]

/-- The sum and the cross product with their callees, their arguments and those that are kept, and
the call of `g` that is copied. -/
theorem passes_droppedCall :
    let k := (infer droppedCall (.resolve droppedCall)).graph
    let x := k.lowerCalls (.resolve droppedCall)
    droppedCall.IsTree ∧ (infer droppedCall (.resolve droppedCall)).failure = none ∧
    (∀ p ∈ [(26, 23, [24, 20, 25], [24, 20, 25]), (20, 18, [8, 15, 19], [15, 19])],
      ((CallTable.resolve droppedCall).known? p.1).map (fun e =>
        (e.form.isWritten, e.form.kept k.isAssignable p.2.2.1)) = some (true, p.2.2.2) ∧
      k.kind p.1 = .call p.2.1 p.2.2.1 ∧ p.1 ∈ x.live) ∧
    (CallTable.resolve droppedCall).target? 11 = some (.user 5) ∧ 11 ∈ x.live := by
  decide +kernel

/-- The sum is assigned to `p` and keeps all arguments. The cross product cannot be assigned to a
call, so of the two calls of `g` that one is gone, and the other stays as it is. -/
theorem lowerCalls_inPlace_droppedCall :
    let g := droppedCall
    let k := (infer g (.resolve g)).graph
    let x := k.lowerCalls (.resolve g)
    g.IsTree ∧ (infer g (.resolve g)).failure = none ∧
    x.live.filter (· ∈ [24, 20, 25]) = [24, 20, 25] ∧
    x.live.filter (· ∈ [8, 15, 19]) = [15, 19] ∧
    x.kind 11 = k.kind 11 ∧ ¬ k.InDropped (.resolve g) 11 := by
  intro g k x
  obtain ⟨hg, hok, hcalls, huser, hlive⟩ := passes_droppedCall
  have hw : WrittenInPlace k x (.resolve g) := lowerCalls_inPlace hg hok
  have hargs : ∀ p ∈ [(26, 23, [24, 20, 25], [24, 20, 25]), (20, 18, [8, 15, 19], [15, 19])],
      x.live.filter (· ∈ p.2.2.1) = p.2.2.2 := fun p hp => by
    obtain ⟨hform, hk, hcx⟩ := hcalls p hp
    obtain ⟨e, he, hform⟩ := Option.map_eq_some_iff.mp hform
    obtain ⟨hwritten, hkept⟩ := Prod.mk.inj hform
    rw [(hw.arguments p.1 e _ _ he hwritten hk).2 hcx, hkept]
  obtain ⟨hsame, hstays⟩ := hw.user 11 5 huser
  exact ⟨hg, hok, hargs (26, _, _, _) List.mem_cons_self,
    hargs (20, _, _, _) (List.mem_cons_of_mem _ List.mem_cons_self), hsame, hstays.mp hlive⟩

end ShaderScript
