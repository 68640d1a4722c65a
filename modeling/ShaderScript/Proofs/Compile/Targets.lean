import ShaderScript.Builder
import ShaderScript.Proofs.Compile.Passes

/-!
# What calls are assigned to

Some forms write a call as an assignment to its first argument. Those that also have a form without
assignment look at the argument first; the form of a plain copy does not.

* `Known.Form.Writes.of_assign`: the assignments that a form writes.
* `Graph.Aimed`: where the assignments come from after some calls have been treated, with
  `Graph.Aimed.put` for one call and `Graph.Aimed.foldl` for all of them.
* **`lowerCalls_assigns_iff`**: an assignment that a call becomes has a target that can be
  assigned, unless the call is a copy into something that cannot.
* **`lowerCalls_assigns_literal`**: a copy into an array literal assigns the literal.
-/

namespace ShaderScript

namespace Known.Form.Writes

variable {first : Nat} {form : Form} {args : List Id} {k : Kind} {ks : List Kind}

theorem of_assign (h : Writes first form args (k :: ks)) {op : AssignOp} {l r : Id} {m : Nat}
    (hm : (k :: ks)[m]? = some (.assign op l r)) :
    m = 0 ∧ op = .set ∧ (∃ rest, args = l :: rest) ∧ (form = .assign ∨ form.isOut = true) := by
  cases h <;> rcases m with _ | _ | _ | m <;> cases hm
  case assign => exact ⟨rfl, rfl, ⟨_, rfl⟩, .inl rfl⟩
  all_goals exact ⟨rfl, rfl, ⟨_, rfl⟩, .inr rfl⟩

end Known.Form.Writes

namespace Graph

variable {g x : Graph} {c : Id}

/-- Where an assignment comes from after the calls of a list have been treated: it was there in the
beginning, or a call has become it. A form that can do without makes sure of its target. -/
def Aimed (g x : Graph) (done : List (Id × Target)) : Prop :=
  ∀ i op l r, x.kind i = .assign op l r → g.kind i = .assign op l r ∨
    ∃ e callee rest, (i, .known e) ∈ done ∧ g.kind i = .call callee (l :: rest) ∧ op = .set ∧
      (e.form = .assign ∨ e.form.isOut = true ∧ g.isAssignable l = true)

namespace Aimed

variable {p : Kind → Bool} {done done' : List (Id × Target)} {e : Known.Entry} {callee : Id}
  {args : List Id}

theorem start (g : Graph) : Aimed g g [] := fun _ _ _ _ hk => .inl hk

theorem mono (h : Aimed g x done) (hsub : done ⊆ done') : Aimed g x done' := fun i op l r hk =>
  (h i op l r hk).imp_right fun ⟨e, callee, rest, hmem, hrest⟩ =>
    ⟨e, callee, rest, hsub hmem, hrest⟩

theorem sameShape (h : Aimed g x done) {y : Graph} (hs : SameShape x y) : Aimed g y done :=
  fun i op l r hk => h i op l r ((hs.kind i).symm.trans hk)

theorem put (h : Aimed g x done) (hl : Lowered p g x) (ht : g.IsTree)
    (hp : ∀ k, p k = true → k.isLasting = false ∧ k.isIdent = false) (hc : c ∈ g.live)
    (hk : g.kind c = .call callee args) (hputs : e.Puts args) :
    Aimed g (x.lowerAs c e.form args) (done ++ [(c, .known e)]) := by
  have hcx : c < x.size := (ht.lt_size hc).trans_le hl.size
  obtain ⟨ns, k, hw, heq⟩ := lowerAs_of_takes (x := x) (c := c) hputs.2
  intro i op l r hi
  rw [heq] at hi
  rcases kept_or_put x c i with ⟨hlt, hic⟩ | hput
  · rw [kind_graft_of_lt hlt hic] at hi
    exact h.mono (List.subset_append_left _ _) i op l r hi
  · have hleft : l ∈ (x.graft ns c k).children i := by
      rw [children, hi]
      exact List.mem_cons_self
    obtain ⟨m, k', hm, hik, him⟩ := exists_kind_graft hcx hput hleft
    obtain ⟨rfl, rfl, ⟨rest, rfl⟩, hform⟩ := hw.of_assign (hm.trans (congrArg some (hik.symm.trans hi)))
    obtain rfl : i = c := him
    refine .inr ⟨e, callee, rest, List.mem_append_right _ List.mem_cons_self, hk, rfl, ?_⟩
    refine hform.imp_right fun hout => ⟨hout, ?_⟩
    exact (Routed.assigns_iff hl ht hp hc hk rfl hout hputs.2).mp ⟨r, heq ▸ hi⟩

theorem foldl (ht : g.IsTree) (hp : ∀ k, p k = true → k.isLasting = false ∧ k.isIdent = false)
    (hpc : ∀ k, k.isCall = true → p k = true) {ts : List (Id × Target)} (h : Aimed g x done)
    (hcl : CallsLowered p g x done) (hkeys : ((done ++ ts).map Prod.fst).Nodup)
    (hts : ∀ q ∈ ts, q.1 ∈ g.live ∧ (∃ callee args, g.kind q.1 = .call callee args) ∧
      ∀ e, q.2 = .known e → e ∈ Known.catalog) :
    Aimed g (ts.foldl lowerTarget x) (done ++ ts) := by
  refine hcl.foldl_rec hp hpc hkeys (fun q hq => ?_) (fun t hcl hc _ hk hnew _ h => ?_) h
  · obtain ⟨hc, hrest⟩ := hts q hq
    exact ⟨hc, ht.lt_size hc, hrest⟩
  · rcases lowerTarget_cases t (hcl.kind_of_new hk hnew) with ⟨heq, -⟩ | ⟨e, rfl, hputs, heq⟩
    · rw [heq]
      exact h.mono (List.subset_append_left _ _)
    · rw [heq]
      exact h.put hcl.lowered ht hp hc hk hputs

end Aimed

/-! ## A program with types -/

section Program

variable (h : g.IsTree) (hok : (infer g (.resolve g)).failure = none)

include h hok

/-- Where the assignments of a program come from whose calls have all been written in their forms. -/
theorem lowered_aimed_lowerCalls :
    Lowered Kind.isCall (infer g (.resolve g)).graph
      ((infer g (.resolve g)).graph.lowerCalls (.resolve g)) ∧
    Aimed (infer g (.resolve g)).graph
      ((infer g (.resolve g)).graph.lowerCalls (.resolve g)) (CallTable.resolve g).targets := by
  have ht := isTree_infer h hok
  refine ⟨(callsLowered_lowerCalls h hok).lowered, ?_⟩
  refine ((Aimed.start _).foldl ht Kind.isCall_spec (fun _ => id) (.start ht) ?_
    fun q hq => target_call_infer hok hq).sameShape (sameShape_link _)
  exact CallTable.nodup_keys_targets g

end Program

end Graph

open Graph

/-- **What calls are assigned to.** After all calls have been written in their forms, an assignment
that was none before is a call of a known function, written as an assignment to its first argument.
That can be assigned, unless the form is that of a plain copy and the argument could not be assigned
before. -/
theorem lowerCalls_assigns_iff {g : Graph} (h : g.IsTree)
    (hok : (infer g (.resolve g)).failure = none) :
    let x := (infer g (.resolve g)).graph.lowerCalls (.resolve g)
    ∀ i ∈ x.live, ∀ op l r, x.kind i = .assign op l r → (∀ op l r, g.kind i ≠ .assign op l r) →
      ∃ e callee rest, (CallTable.resolve g).known? i = some e ∧
        g.kind i = .call callee (l :: rest) ∧ op = .set ∧
        (x.isAssignable l = true ↔ (e.form = .assign → g.isAssignable l = true)) := by
  intro x i _ op l r hx hnew
  obtain ⟨hlow, haimed⟩ := lowered_aimed_lowerCalls h hok
  have hs := (infer_attached hok).1.sameShape
  rcases haimed i op l r hx with hold | ⟨e, callee, rest, hmem, hk, hop, hform⟩
  · exact absurd ((hs.kind i).symm.trans hold) (hnew op l r)
  rw [hs.kind] at hk
  rw [hs.isAssignable] at hform
  have hi : i ∈ g.live := (target_call hmem).1
  have hl : l < g.size := h.child_lt i hi l (by rw [children, hk]; simp [Kind.children])
  have hsame : x.isAssignable l = g.isAssignable l :=
    (hlow.isAssignable_eq (fun k hk => k.isLowerable_spec (k.isLowerable_of_isCall hk))
      (hs.size ▸ hl)).trans (hs.isAssignable l)
  refine ⟨e, callee, rest, ?_, hk, hop, ?_⟩
  · rw [CallTable.known?, CallTable.mem_targets.mp hmem]
  · rw [hsame]
    refine ⟨fun ha _ => ha, fun ha => ?_⟩
    rcases hform with hcopy | ⟨-, ha'⟩
    · exact ha hcopy
    · exact ha'

/-- The program `function f(p) { return vec3.add(p, vec3.copy([1, 2, 3], p)); }`. -/
def copiedLiteral : Graph := Build.finish do
  let p ← Build.ident "p"
  let literal ← Build.array (← ["1", "2", "3"].mapM Build.num)
  let copy ← Build.call (← Build.field (← Build.ident "vec3") "copy") [literal, ← Build.ident "p"]
  let sum ← Build.call (← Build.field (← Build.ident "vec3") "add") [p, copy, ← Build.ident "p"]
  let _ ← Build.function "f" ["p"] [← Build.ret (some sum)]

theorem passes_copiedLiteral :
    let x := (infer copiedLiteral (.resolve copiedLiteral)).graph.lowerCalls
      (.resolve copiedLiteral)
    copiedLiteral.IsTree ∧ (infer copiedLiteral (.resolve copiedLiteral)).failure = none ∧
    (∀ i ∈ [14, 9], (copiedLiteral.kind i).isCall = true) ∧
    (14 ∈ x.live ∧ x.kind 14 = .assign .set 0 21) ∧ (9 ∈ x.live ∧ x.kind 9 = .assign .set 4 8) ∧
      x.isAssignable 0 = true ∧ x.isAssignable 4 = false := by
  decide +kernel

/-- The form of the outer call looks at its target, that of the inner call does not. -/
theorem lowerCalls_assigns_iff_copiedLiteral :
    let g := copiedLiteral
    let x := (infer g (.resolve g)).graph.lowerCalls (.resolve g)
    g.IsTree ∧ (infer g (.resolve g)).failure = none ∧
    ∀ p ∈ [(14, 0, true), (9, 4, false)], ∃ e callee rest,
      (CallTable.resolve g).known? p.1 = some e ∧ g.kind p.1 = .call callee (p.2.1 :: rest) ∧
        (x.isAssignable p.2.1 = true ↔ (e.form = .assign → g.isAssignable p.2.1 = true)) ∧
        x.isAssignable p.2.1 = p.2.2 := by
  intro g x
  obtain ⟨hg, hok, hcalls, ⟨houter, hsum⟩, ⟨hinner, hcopy⟩, hvar, hlit⟩ := passes_copiedLiteral
  have hnew : ∀ i ∈ [14, 9], ∀ op l r, copiedLiteral.kind i ≠ .assign op l r := by
    intro i hi op l r hk
    simpa [hk, Kind.isCall] using hcalls i hi
  have hsums := lowerCalls_assigns_iff hg hok 14 houter _ _ _ hsum (hnew 14 (by decide))
  have hcopies := lowerCalls_assigns_iff hg hok 9 hinner _ _ _ hcopy (hnew 9 (by decide))
  refine ⟨hg, hok, fun p hp => ?_⟩
  simp only [List.mem_cons, List.not_mem_nil, or_false] at hp
  rcases hp with rfl | rfl
  · obtain ⟨e, callee, rest, he, hk, -, hiff⟩ := hsums
    exact ⟨e, callee, rest, he, hk, hiff, hvar⟩
  · obtain ⟨e, callee, rest, he, hk, -, hiff⟩ := hcopies
    exact ⟨e, callee, rest, he, hk, hiff, hlit⟩

/-- **A copy into an array literal** is written as an assignment to the literal. -/
theorem lowerCalls_assigns_literal :
    ¬ ∀ g : Graph, g.IsTree → (infer g (.resolve g)).failure = none →
      let x := (infer g (.resolve g)).graph.lowerCalls (.resolve g)
      ∀ i ∈ x.live, ∀ op l r, x.kind i = .assign op l r → (∀ op l r, g.kind i ≠ .assign op l r) →
        x.isAssignable l = true := by
  intro h
  obtain ⟨hg, hok, hcalls, -, ⟨hinner, hcopy⟩, -, hlit⟩ := passes_copiedLiteral
  have hcall := hcalls 9 (by decide)
  have ha := h copiedLiteral hg hok 9 hinner _ _ _ hcopy
    fun op l r hk => by simp [hk, Kind.isCall] at hcall
  exact absurd (hlit.symm.trans ha) (by decide)

end ShaderScript
