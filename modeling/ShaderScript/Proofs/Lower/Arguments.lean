import ShaderScript.Proofs.Lower.Calls
import ShaderScript.Proofs.Lower.Discards

/-!
# What becomes of arguments

Writing a call in its form moves its arguments, at most below one new node. Two things lose their
place: the callee, which a form does without, and the first argument of a form that would assign its
result there, where that argument cannot be assigned.

* `Known.Form.isOut`: the forms that assign their result to the first argument.
* `Known.Form.Writes.keeps`, `Known.Form.Writes.drops`: the arguments that a form has a place for.
* `Graph.DropsOut`, `Graph.DropsCallee`: what loses its place.
* `Graph.Routed`: what holds after some calls have been treated, with `Graph.Routed.step` for one
  call and **`Graph.Routed.foldl`** for all of them.
* **`Graph.Routed.reached_iff`**: the nodes that are still part of the program.
-/

namespace ShaderScript

namespace Known

/-- Whether a form assigns its result to the first argument, where that can be assigned. -/
def Form.isOut : Form → Bool
  | .outBinary _ | .outUnary _ | .outRename _ => true
  | _ => false

/-- Whether a form is a fixed text. -/
def Form.isSplice : Form → Bool
  | .splice _ => true
  | _ => false

theorem arity_of_isSplice {e : Entry} (he : e ∈ catalog) (hs : e.form.isSplice = true) :
    e.arity = 0 := by
  have hall : ∀ e ∈ catalog, e.form.isSplice = true → e.arity = 0 := by decide +kernel
  exact hall e he hs

namespace Form.Writes

variable {first : Nat} {form : Form} {args : List Id} {k : Kind} {ks : List Kind}

/-- A form has a place for every argument, but for a first one that it does not assign. -/
theorem keeps (h : Writes first form args (k :: ks)) (hs : form.isSplice = false) {a : Id}
    (ha : a ∈ args) :
    (a ∈ k.children ∨ ∃ m k', ks[m]? = some k' ∧ a ∈ k'.children ∧ first + m ∈ k.children) ∨
      form.isOut = true ∧ (∃ rest, args = a :: rest) ∧ ∀ right, k ≠ .assign .set a right := by
  cases h with
  | rename target args => exact .inl (.inl (List.mem_cons_of_mem _ ha))
  | binary | unary | argument | assign => exact .inl (.inl ha)
  | splice => cases hs
  | outBinary op out a' b =>
    rcases List.mem_cons.mp ha with rfl | ha
    · exact .inl (.inl List.mem_cons_self)
    · exact .inl (.inr ⟨0, _, rfl, ha, List.mem_cons_of_mem _ List.mem_cons_self⟩)
  | outUnary op out a' =>
    rcases List.mem_cons.mp ha with rfl | ha
    · exact .inl (.inl List.mem_cons_self)
    · exact .inl (.inr ⟨0, _, rfl, ha, List.mem_cons_of_mem _ List.mem_cons_self⟩)
  | outRename target out args =>
    rcases List.mem_cons.mp ha with rfl | ha
    · exact .inl (.inl List.mem_cons_self)
    · exact .inl (.inr ⟨1, _, rfl, List.mem_cons_of_mem _ ha,
        List.mem_cons_of_mem _ List.mem_cons_self⟩)
  | plainBinary op out a' b =>
    rcases List.mem_cons.mp ha with rfl | ha
    · exact .inr ⟨rfl, ⟨_, rfl⟩, nofun⟩
    · exact .inl (.inl ha)
  | plainUnary op out a' =>
    rcases List.mem_cons.mp ha with rfl | ha
    · exact .inr ⟨rfl, ⟨_, rfl⟩, nofun⟩
    · exact .inl (.inl ha)
  | plainRename target out args =>
    rcases List.mem_cons.mp ha with rfl | ha
    · exact .inr ⟨rfl, ⟨_, rfl⟩, nofun⟩
    · exact .inl (.inl (List.mem_cons_of_mem _ ha))

theorem drops {out : Id} {rest : List Id} (h : Writes first form (out :: rest) (k :: ks))
    (hout : form.isOut = true) (hk : ∀ right, k ≠ .assign .set out right) (hrest : out ∉ rest)
    (hlt : out < first) {k' : Kind} (hk' : k' ∈ k :: ks) : out ∉ k'.children := by
  have hne : out ≠ first := hlt.ne
  cases h with
  | rename | binary | unary | argument | assign | splice => cases hout
  | outBinary | outUnary | outRename => exact absurd rfl (hk _)
  | plainBinary op _ a b =>
    rw [List.mem_singleton.mp hk']
    exact hrest
  | plainUnary op _ a =>
    rw [List.mem_singleton.mp hk']
    exact hrest
  | plainRename target _ args =>
    rcases List.mem_cons.mp hk' with rfl | hk'
    · rw [Kind.children, List.mem_cons, not_or]
      exact ⟨hne, hrest⟩
    · rw [List.mem_singleton.mp hk']
      exact List.not_mem_nil

end Form.Writes

end Known

namespace Graph

variable {g x : Graph} {c : Id}

/-! ## Assignable nodes -/

theorem isAssignable_iff {i : Id} : g.isAssignable i = true ↔
    (∃ name, g.kind i = .ident name) ∨ (∃ o p, g.kind i = .field o p) ∨
      ∃ o p, g.kind i = .index o p := by
  unfold isAssignable
  cases g.kind i <;> simp

theorem Lowered.isAssignable_eq {p : Kind → Bool} (h : Lowered p g x)
    (hp : ∀ k, p k = true → k.isLasting = false ∧ k.isIdent = false) {i : Id} (hi : i < g.size) :
    x.isAssignable i = g.isAssignable i := by
  have hident : ∀ name, x.kind i = .ident name ↔ g.kind i = .ident name := by
    refine fun name => ⟨h.ident hi, fun hk => ?_⟩
    rw [h.other i hi, hk]
    rw [hk, Bool.eq_false_iff]
    intro hpk
    cases (hp _ hpk).2
  refine Bool.eq_iff_iff.mpr ?_
  rw [isAssignable_iff, isAssignable_iff]
  simp only [hident, h.lasting i (.field _ _) rfl, h.lasting i (.index _ _) rfl]

theorem lowerAs_assigns_iff {form : Known.Form} {out : Id} {rest : List Id}
    (hout : form.isOut = true) (htakes : form.takes (out :: rest).length = true)
    (hc : c < x.size) (hlt : out < x.size) :
    (∃ right, (x.lowerAs c form (out :: rest)).kind c = .assign .set out right) ↔
      x.isAssignable out = true := by
  have hlowerOut : ∀ {y : Graph} {plain : Kind}, c < y.size →
      (∀ right, plain ≠ .assign .set out right) →
      ((∃ right, (y.lowerOut c out plain).kind c = .assign .set out right) ↔
        y.isAssignable out = true) := by
    intro y plain hcy hplain
    rw [lowerOut_eq]
    split_ifs with ha
    · exact iff_of_true ⟨_, kind_graft_site hcy⟩ ha
    · refine iff_of_false ?_ ha
      rintro ⟨right, hk⟩
      rw [kind_graft_site hcy] at hk
      exact hplain right hk
  cases form with
  | keep | rename | binary | unary | argument | assign | splice | reject => cases hout
  | outBinary op =>
    obtain ⟨_, a, b, hargs⟩ := List.length_eq_three.mp (eq_of_beq htakes)
    cases hargs
    exact hlowerOut hc nofun
  | outUnary op =>
    obtain ⟨_, a, hargs⟩ := List.length_eq_two.mp (eq_of_beq htakes)
    cases hargs
    exact hlowerOut hc nofun
  | outRename target =>
    have hne : ∀ right, Kind.call x.size rest ≠ .assign .set out right := nofun
    simp only [lowerAs, allocTyped_eq]
    rw [hlowerOut (by rw [size_add]; exact Nat.lt_add_right _ hc) hne]
    unfold isAssignable kind
    rw [node_add_of_lt _ hlt]

/-! ## What loses its place -/

/-- A call of the list loses its first argument: its form would assign the result there, and that
cannot be assigned. -/
def DropsOut (g : Graph) (done : List (Id × Target)) (c p : Id) : Prop :=
  ∃ e callee rest, (c, .known e) ∈ done ∧ g.kind c = .call callee (p :: rest) ∧
    e.Puts (p :: rest) ∧ e.form.isOut = true ∧ g.isAssignable p = false

/-- A call of the list loses its callee. -/
def DropsCallee (g : Graph) (done : List (Id × Target)) (c p : Id) : Prop :=
  ∃ e args, (c, .known e) ∈ done ∧ g.kind c = .call p args ∧ e.Puts args

theorem DropsOut.mono {done done' : List (Id × Target)} {p : Id} (h : DropsOut g done c p)
    (hsub : done ⊆ done') : DropsOut g done' c p := by
  obtain ⟨e, callee, rest, hmem, hrest⟩ := h
  exact ⟨e, callee, rest, hsub hmem, hrest⟩

theorem DropsCallee.mono {done done' : List (Id × Target)} {p : Id} (h : DropsCallee g done c p)
    (hsub : done ⊆ done') : DropsCallee g done' c p := by
  obtain ⟨e, args, hmem, hrest⟩ := h
  exact ⟨e, args, hsub hmem, hrest⟩

theorem DropsOut.child {done : List (Id × Target)} {p : Id} (h : DropsOut g done c p) :
    p ∈ g.children c := by
  obtain ⟨e, callee, rest, -, hk, -⟩ := h
  rw [children, hk]
  exact List.mem_cons_of_mem _ List.mem_cons_self

/-- From `c` one gets to `p`, at most by way of one new node. -/
def Leads (g x : Graph) (c p : Id) : Prop :=
  p ∈ x.children c ∨ ∃ q, g.size ≤ q ∧ q ∈ x.children c ∧ p ∈ x.children q

/-- Neither `c` nor a new node holds `p`. -/
def Lost (g x : Graph) (c p : Id) : Prop :=
  p ∉ x.children c ∧ ∀ q, g.size ≤ q → p ∉ x.children q

section Graft

variable {p site : Id} {ns : List Node} {k : Kind} (hsite : site < g.size)

include hsite

/-- What is put in another place does not stand in the way. -/
theorem Leads.graft (h : Leads g x c p) (hne : c ≠ site) : Leads g (x.graft ns site k) c p := by
  rcases h with hp | ⟨q, hq, hqc, hp⟩
  · refine .inl ?_
    rwa [children_graft_of_lt (lt_size_of_mem_children hp) hne]
  · refine .inr ⟨q, hq, ?_, ?_⟩
    · rwa [children_graft_of_lt (lt_size_of_mem_children hqc) hne]
    · rwa [children_graft_of_lt (lt_size_of_mem_children hp) (hsite.trans_le hq).ne']

theorem Lost.graft {owner : Id → Id} (h : Lost g x c p) (ht : g.IsTree) (hg : Grown g x owner)
    (hc : c ∈ g.live) (hp : p ∈ g.children c) (hlive : site ∈ g.live) (hne : c ≠ site)
    (hfit : Fits (x.children site) x.size (k :: ns.map Node.kind)) :
    Lost g (x.graft ns site k) c p := by
  have hplt : p < g.size := ht.child_lt c hc p hp
  refine ⟨?_, fun q hq hpq => ?_⟩
  · rw [children_graft_of_lt ((ht.lt_size hc).trans_le hg.size) hne]
    exact h.1
  · rcases kept_or_put x site q with ⟨hlt, hqs⟩ | hput
    · rw [children_graft_of_lt hlt hqs] at hpq
      exact h.2 q hq hpq
    · rcases child_of_put (hsite.trans_le hg.size) hfit hput hpq with hps | ⟨hge, -⟩
      · -- the site would have held it in the beginning
        have howner : owner site ∈ g.live := by rw [hg.old site hsite]; exact hlive
        have hold := hg.child_old site howner p hps hplt
        rw [hg.old site hsite] at hold
        exact hne (ht.unshared.holder_unique c hc site hlive p hp hold)
      · exact absurd (hplt.trans_le hg.size) (not_lt.mpr hge)

end Graft

/-! ## All calls -/

/-- What holds after the calls of a list have been treated: one gets from every node to what it held
in the beginning, but for callees and for first arguments that have lost their place. -/
structure Routed (g x : Graph) (done : List (Id × Target)) : Prop where
  kept : ∀ c ∈ g.live, ∀ p ∈ g.children c, ¬ DropsOut g done c p → ¬ DropsCallee g done c p →
    Leads g x c p
  lost : ∀ c ∈ g.live, ∀ p, DropsOut g done c p → Lost g x c p

namespace Routed

variable {p : Kind → Bool} {done : List (Id × Target)} {e : Known.Entry} {callee : Id}
  {args : List Id} {t : Target}

theorem start (g : Graph) : Routed g g [] := by
  refine ⟨fun c _ p hp _ _ => .inl hp, fun c _ p hdrops => ?_⟩
  obtain ⟨_, _, _, hmem, -⟩ := hdrops
  cases hmem

theorem sameShape (h : Routed g x done) {y : Graph} (hs : SameShape x y) : Routed g y done := by
  refine ⟨fun c hc p hp hout hcallee => ?_, fun c hc p hp => ?_⟩
  · have := h.kept c hc p hp hout hcallee
    unfold Leads at this ⊢
    simpa only [hs.children] using this
  · have := h.lost c hc p hp
    unfold Lost at this ⊢
    simpa only [hs.children] using this

theorem idle (h : Routed g x done) (hk : g.kind c = .call callee args)
    (ht : ∀ e, t = .known e → ¬ e.Puts args) : Routed g x (done ++ [(c, t)]) := by
  refine ⟨fun c' hc' p hp hout hcallee => ?_, fun c' hc' p hout => ?_⟩
  · exact h.kept c' hc' p hp (fun ho => hout (ho.mono (List.subset_append_left _ _)))
      fun hd => hcallee (hd.mono (List.subset_append_left _ _))
  · obtain ⟨e, callee', rest, hmem, hk', hputs, hrest⟩ := hout
    rcases List.mem_append.mp hmem with hmem | hmem
    · exact h.lost c' hc' p ⟨e, callee', rest, hmem, hk', hputs, hrest⟩
    · obtain ⟨rfl, rfl⟩ := Prod.mk.inj (List.mem_singleton.mp hmem)
      rw [hk] at hk'
      cases hk'
      exact absurd hputs (ht e rfl)

section Put

variable (hl : Lowered p g x) (ht : g.IsTree)
  (hp : ∀ k, p k = true → k.isLasting = false ∧ k.isIdent = false) (hc : c ∈ g.live)
  (hk : g.kind c = .call callee args) (hkx : x.kind c = .call callee args)

include hl ht hp hc hk in
/-- A form assigns its result to the first argument exactly where that could be assigned in the
beginning. -/
theorem assigns_iff {out : Id} {rest : List Id} {form : Known.Form} (hargs : args = out :: rest)
    (hout : form.isOut = true) (htakes : form.takes args.length = true) :
    (∃ right, (x.lowerAs c form args).kind c = .assign .set out right) ↔
      g.isAssignable out = true := by
  subst hargs
  have hlt : out < g.size := by
    refine ht.child_lt c hc out ?_
    rw [children, hk]
    exact List.mem_cons_of_mem _ List.mem_cons_self
  rw [← hl.isAssignable_eq hp hlt]
  exact lowerAs_assigns_iff hout htakes ((ht.lt_size hc).trans_le hl.size) (hlt.trans_le hl.size)

include hl ht hp hc hk in
theorem leads_lowerAs (he : e ∈ Known.catalog) (hputs : e.Puts args) {a : Id} (ha : a ∈ args)
    (hkept : ∀ rest, args = a :: rest → e.form.isOut = true → g.isAssignable a = true) :
    Leads g (x.lowerAs c e.form args) c a := by
  have hcx : c < x.size := (ht.lt_size hc).trans_le hl.size
  obtain ⟨ns, k, hw, heq⟩ := lowerAs_of_takes (x := x) (c := c) hputs.2
  have hkind : (x.lowerAs c e.form args).kind c = k := by
    rw [heq, kind_graft_site hcx]
  have hsplice : e.form.isSplice = false := by
    rw [Bool.eq_false_iff]
    intro hs
    have hlen := hputs.1
    rw [Known.arity_of_isSplice he hs] at hlen
    rw [List.eq_nil_of_length_eq_zero hlen] at ha
    cases ha
  rcases hw.keeps hsplice ha with (hchild | ⟨m, k', hm, hak, hfirst⟩) | ⟨hout, ⟨rest, hargs⟩, hne⟩
  · refine .inl ?_
    rwa [children, hkind]
  · refine .inr ⟨x.size + m, hl.size.trans (Nat.le_add_right _ _), ?_, ?_⟩
    · rwa [children, hkind]
    · rwa [children, heq, kind_graft_new hcx, kind_getD hm]
  · obtain ⟨right, hright⟩ :=
      (assigns_iff hl ht hp hc hk hargs hout hputs.2).mpr (hkept rest hargs hout)
    exact absurd (hkind.symm.trans hright) (hne right)

include hl ht hp hc hk hkx in
theorem lost_lowerAs {form : Known.Form} {out : Id} {rest : List Id} (hargs : args = out :: rest)
    (hout : form.isOut = true) (htakes : form.takes args.length = true)
    (hna : g.isAssignable out = false) : Lost g (x.lowerAs c form args) c out := by
  have hcx : c < x.size := (ht.lt_size hc).trans_le hl.size
  obtain ⟨owner, hg⟩ := hl.grown
  obtain ⟨ns, k, hw, heq⟩ := lowerAs_of_takes (x := x) (c := c) htakes
  have hne : ∀ right, k ≠ .assign .set out right := by
    rintro right rfl
    rw [(assigns_iff hl ht hp hc hk hargs hout htakes).mp
      ⟨right, by rw [heq, kind_graft_site hcx]⟩] at hna
    cases hna
  subst hargs
  have hchild : out ∈ g.children c := by
    rw [children, hk]
    exact List.mem_cons_of_mem _ List.mem_cons_self
  have hlt := ht.child_lt c hc out hchild
  have hrest : out ∉ rest := by
    have hnodup := ht.children_nodup c hc
    rw [children, hk] at hnodup
    exact (List.nodup_cons.mp (List.nodup_cons.mp hnodup).2).1
  have hnone : ∀ k' ∈ k :: ns.map Node.kind, out ∉ k'.children := fun k' hk' =>
    hw.drops hout hne hrest (hlt.trans_le hl.size) hk'
  rw [heq]
  refine ⟨?_, fun q hq hoq => ?_⟩
  · rw [children, kind_graft_site hcx]
    exact hnone k List.mem_cons_self
  · rcases kept_or_put x c q with ⟨hqlt, hqc⟩ | hput
    · rw [children_graft_of_lt hqlt hqc] at hoq
      -- only the call itself has held it so far
      have howner := hg.new q hq hqlt
      have hqo := ht.unshared.holder_unique _ howner c hc out
        (hg.child_old q howner out hoq hlt) hchild
      refine hqc (hg.unique q c howner ?_ out hoq ?_)
      · rw [hqo, hg.old c (ht.lt_size hc)]
      · rw [children, hkx]
        exact List.mem_cons_of_mem _ List.mem_cons_self
    · obtain ⟨m, k', hm, hkq, -⟩ := exists_kind_graft hcx hput hoq
      rw [children, hkq] at hoq
      exact hnone k' (List.mem_of_getElem? hm) hoq

variable (h : Routed g x done)

include h hl ht hp hc hk hkx

theorem put (hnew : ∀ e, (c, .known e) ∉ done) (he : e ∈ Known.catalog) (hputs : e.Puts args) :
    Routed g (x.lowerAs c e.form args) (done ++ [(c, .known e)]) := by
  have hlt := ht.lt_size hc
  obtain ⟨owner, hg⟩ := hl.grown
  obtain ⟨ns, k, hw, heq⟩ := lowerAs_of_takes (x := x) (c := c) hputs.2
  have hfit : Fits (x.children c) x.size (k :: ns.map Node.kind) := by
    rw [children, hkx]
    exact hw.fits callee
  have hsub : done ⊆ done ++ [(c, .known e)] := List.subset_append_left _ _
  have hmem : (c, Target.known e) ∈ done ++ [(c, .known e)] :=
    List.mem_append_right _ List.mem_cons_self
  refine ⟨fun c' hc' q hq hout hcallee => ?_, fun c' hc' q hout => ?_⟩
  · by_cases hcc : c' = c
    · subst hcc
      rw [children, hk] at hq
      rcases List.mem_cons.mp hq with rfl | hq
      · exact absurd ⟨e, args, hmem, hk, hputs⟩ hcallee
      refine leads_lowerAs hl ht hp hc hk he hputs hq fun rest hargs hisOut => ?_
      by_contra hna
      subst hargs
      exact hout ⟨e, callee, rest, hmem, hk, hputs, hisOut, Bool.eq_false_iff.mpr hna⟩
    · rw [heq]
      exact (h.kept c' hc' q hq (fun ho => hout (ho.mono hsub))
        fun hd => hcallee (hd.mono hsub)).graft hlt hcc
  · obtain ⟨e', callee', rest, hmem', hk', hputs', hisOut, hna⟩ := hout
    rcases List.mem_append.mp hmem' with hold | hmem'
    · have hcc : c' ≠ c := fun he => hnew e' (he ▸ hold)
      have hdrops : DropsOut g done c' q :=
        ⟨e', callee', rest, hold, hk', hputs', hisOut, hna⟩
      rw [heq]
      exact (h.lost c' hc' q hdrops).graft hlt ht hg hc' hdrops.child hc hcc hfit
    · cases List.mem_singleton.mp hmem'
      rw [hk] at hk'
      cases hk'
      exact lost_lowerAs hl ht hp hc hk hkx rfl hisOut hputs.2 hna

end Put

/-- **The whole table**: one gets to everything but what has lost its place. -/
theorem foldl (h : Routed g x done) (ht : g.IsTree)
    (hp : ∀ k, p k = true → k.isLasting = false ∧ k.isIdent = false)
    (hpc : ∀ k, k.isCall = true → p k = true) {ts : List (Id × Target)}
    (hcl : CallsLowered p g x done) (hkeys : ((done ++ ts).map Prod.fst).Nodup)
    (hts : ∀ q ∈ ts, q.1 ∈ g.live ∧ (∃ callee args, g.kind q.1 = .call callee args) ∧
      ∀ e, q.2 = .known e → e ∈ Known.catalog) :
    Routed g (ts.foldl lowerTarget x) (done ++ ts) := by
  refine hcl.foldl_rec hp hpc hkeys (fun q hq => ?_) (fun t hcl hc _ hk hnew he h => ?_) h
  · obtain ⟨hc, hrest⟩ := hts q hq
    exact ⟨hc, ht.lt_size hc, hrest⟩
  · have hkx := hcl.kind_of_new hk hnew
    rcases lowerTarget_cases t hkx with ⟨heq, hno⟩ | ⟨e, rfl, hputs, heq⟩
    · rw [heq]
      exact h.idle hk hno
    · rw [heq]
      exact put hcl.lowered ht hp hc hk hkx h hnew (he e rfl) hputs

/-- A first argument that has lost its place is no part of the program any more. -/
theorem unreached (h : Routed g x done) (hl : Lowered p g x) (ht : g.IsTree) (hc : c ∈ g.live)
    {q : Id} (hdrops : DropsOut g done c q) {d : Nat} : ¬ x.Below x.root d q := by
  obtain ⟨owner, hg⟩ := hl.grown
  have hchild := hdrops.child
  intro hd
  rw [hg.root] at hd
  cases hd with
  | refl => exact ht.unshared.root_free c hc hchild
  | @step n r _ hr hqr =>
    -- whatever holds it now belongs to the call, and has lost it
    have hroot : owner g.root ∈ g.live := by
      rw [hg.old _ ht.root_lt]
      exact ht.root_live
    have howner := (hg.below ht hroot hr).1
    have hrc := ht.unshared.holder_unique _ howner c hc q
      (hg.child_old r howner q hqr (ht.lt_size (ht.child_live hc hchild))) hchild
    obtain ⟨hnot, hnew⟩ := h.lost c hc q hdrops
    rcases Nat.lt_or_ge r g.size with hrlt | hrge
    · rw [hg.old r hrlt] at hrc
      exact hnot (hrc ▸ hqr)
    · exact hnew r hrge hqr

/-- **The nodes that are still part of the program** are those that are in no first argument that
has lost its place, and in no callee. -/
theorem reached_iff (h : Routed g x done) (hl : Lowered p g x) (ht : g.IsTree) {i : Id}
    (hi : i ∈ g.live) (hcallee : ∀ c q d, DropsCallee g done c q → ¬ g.Below q d i) :
    (∃ d, x.Below x.root d i) ↔ ∀ c ∈ g.live, ∀ q d, DropsOut g done c q → ¬ g.Below q d i := by
  obtain ⟨owner, hg⟩ := hl.grown
  constructor
  · intro hreach c hc q d hdrops hd
    have hql := ht.child_live hc hdrops.child
    obtain ⟨⟨n, hn⟩, -⟩ := hg.below_of_below ht hql (ht.lt_size hi) hreach hd
    exact h.unreached hl ht hc hdrops hn
  · intro hout
    obtain ⟨n, hn⟩ := ht.mem_live_iff.mp hi
    clear hi
    induction n generalizing i with
    | zero =>
      cases hn
      rw [hg.root]
      exact ⟨0, .refl⟩
    | succ n ih =>
      cases hn with
      | @step _ r _ hr hir =>
        have hrl := ht.mem_live_iff.mpr ⟨n, hr⟩
        obtain ⟨m, hm⟩ := ih (fun c q d hdrops hd => hcallee c q _ hdrops (.step hd hir))
          (fun c hc q d hdrops hd => hout c hc q _ hdrops (.step hd hir)) hr
        rcases h.kept r hrl i hir (fun hdrops => hout r hrl i 0 hdrops .refl)
          (fun hdrops => hcallee r i 0 hdrops .refl) with hix | ⟨q, -, hq, hiq⟩
        · exact ⟨_, .step hm hix⟩
        · exact ⟨_, .step (.step hm hq) hiq⟩

end Routed

end Graph

end ShaderScript
