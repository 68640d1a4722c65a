import ShaderScript.Call
import ShaderScript.Proofs.Graph.Edit

/-!
# The table of calls

The table is filled once, from a verdict on every call of the program. Looking a node up gives the
verdict on that node.

* `CallTable.target?_eq_some`, `CallTable.error?_eq_some`: what the table has for a node.
* `Graph.verdict_user`, `Graph.verdict_known`: what a verdict says about the callee.
* `Graph.kind_of_below_path`: what stands below a callee that has a path.
-/

namespace ShaderScript

theorem lookup_filterMap {α : Type} {is : List Id} {value : Id → Option α} {i : Id} (hi : i ∈ is) :
    (is.filterMap fun j => (value j).map fun t => (j, t)).lookup i = value i := by
  induction is with
  | nil => cases hi
  | cons j is ih =>
    by_cases hj : j = i
    · subst hj
      cases ht : value j with
      | some t => rw [List.filterMap_cons_some (by rw [ht]; rfl)]; simp
      | none =>
        rw [List.filterMap_cons_none (by rw [ht]; rfl)]
        refine List.lookup_eq_none_iff.mpr fun p hp => ?_
        obtain ⟨k, -, hk⟩ := List.mem_filterMap.mp hp
        obtain ⟨t, htk, rfl⟩ := Option.map_eq_some_iff.mp hk
        rw [bne_iff_ne]
        rintro rfl
        rw [ht] at htk
        cases htk
    · have hi' := (List.mem_cons.mp hi).resolve_left (Ne.symm hj)
      rw [← ih hi', List.filterMap_cons]
      cases value j with
      | none => rfl
      | some t => rw [Option.map_some, List.lookup_cons, beq_false_of_ne (Ne.symm hj)]

theorem lookup_filterMap_eq_some {α : Type} {is : List Id} {value : Id → Option α} {i : Id}
    {t : α} : (is.filterMap fun j => (value j).map fun t => (j, t)).lookup i = some t ↔
      i ∈ is ∧ value i = some t := by
  constructor
  · intro h
    have hi : i ∈ is := by
      obtain ⟨l₁, l₂, hl, -⟩ := List.lookup_eq_some_iff.mp h
      have hmem : (i, t) ∈ is.filterMap fun j => (value j).map fun t => (j, t) := by
        rw [hl]
        exact List.mem_append_right _ List.mem_cons_self
      obtain ⟨j, hj, he⟩ := List.mem_filterMap.mp hmem
      obtain ⟨_, -, he⟩ := Option.map_eq_some_iff.mp he
      cases he
      exact hj
    rw [lookup_filterMap hi] at h
    exact ⟨hi, h⟩
  · rintro ⟨hi, ht⟩
    rw [lookup_filterMap hi, ht]

theorem keys_sublist {α : Type} (is : List Id) (value : Id → Option α) :
    ((is.filterMap fun j => (value j).map fun t => (j, t)).map Prod.fst).Sublist is := by
  induction is with
  | nil => exact List.Sublist.refl _
  | cons j is ih =>
    rw [List.filterMap_cons]
    cases value j with
    | none => exact ih.cons j
    | some t => exact ih.cons_cons j

theorem nodup_eraseDups (is : List Id) : is.eraseDups.Nodup := by
  induction hn : is.length using Nat.strong_induction_on generalizing is with
  | _ n ih =>
    subst hn
    cases is with
    | nil => exact List.nodup_nil
    | cons i is =>
      rw [List.eraseDups_cons, List.nodup_cons]
      refine ⟨fun hi => ?_, ih _ (Nat.lt_succ_of_le (List.length_filter_le _ _)) _ rfl⟩
      have hne := (List.mem_filter.mp (List.mem_eraseDups.mp hi)).2
      rw [beq_self_eq_true] at hne
      cases hne

namespace CallTable

variable {g : Graph} {i : Id}

theorem targets_resolve : (resolve g).targets = g.live.eraseDups.filterMap fun j =>
    ((g.verdict? j).bind Verdict.target?).map fun t => (j, t) := by
  change (verdicts g).filterMap _ = _
  rw [verdicts, List.filterMap_filterMap]
  congr 1
  funext j
  cases g.verdict? j <;> rfl

theorem errors_resolve : (resolve g).errors = g.live.eraseDups.filterMap fun j =>
    ((g.verdict? j).bind Verdict.error?).map fun e => (j, e) := by
  change (verdicts g).filterMap _ = _
  rw [verdicts, List.filterMap_filterMap]
  congr 1
  funext j
  cases g.verdict? j <;> rfl

theorem target?_resolve (hi : i ∈ g.live) :
    (resolve g).target? i = (g.verdict? i).bind Verdict.target? := by
  rw [target?, targets_resolve, lookup_filterMap (List.mem_eraseDups.mpr hi)]

theorem target?_eq_some {t : Target} : (resolve g).target? i = some t ↔
    i ∈ g.live ∧ (g.verdict? i).bind Verdict.target? = some t := by
  rw [target?, targets_resolve, lookup_filterMap_eq_some, List.mem_eraseDups]

theorem error?_eq_some {e : Error} : (resolve g).error? i = some e ↔
    i ∈ g.live ∧ (g.verdict? i).bind Verdict.error? = some e := by
  rw [error?, errors_resolve, lookup_filterMap_eq_some, List.mem_eraseDups]

theorem mem_targets {t : Target} :
    (i, t) ∈ (resolve g).targets ↔ (resolve g).target? i = some t := by
  rw [target?_eq_some, targets_resolve, List.mem_filterMap]
  constructor
  · rintro ⟨j, hj, he⟩
    obtain ⟨t', ht', he⟩ := Option.map_eq_some_iff.mp he
    cases he
    exact ⟨List.mem_eraseDups.mp hj, ht'⟩
  · rintro ⟨hi, ht⟩
    exact ⟨i, List.mem_eraseDups.mpr hi, by rw [ht]; rfl⟩

theorem known?_eq_some {t : CallTable} {e : Known.Entry} :
    t.known? i = some e ↔ t.target? i = some (.known e) := by
  unfold known?
  split
  case h_1 e' he => rw [he, Option.some.injEq, Option.some.injEq, Target.known.injEq]
  case h_2 hno => exact ⟨nofun, fun he => absurd he (hno e)⟩

theorem nodup_keys_targets (g : Graph) : ((resolve g).targets.map Prod.fst).Nodup := by
  rw [targets_resolve]
  exact (nodup_eraseDups g.live).sublist (keys_sublist _ _)

theorem nodup_keys_errors (g : Graph) : ((resolve g).errors.map Prod.fst).Nodup := by
  rw [errors_resolve]
  exact (nodup_eraseDups g.live).sublist (keys_sublist _ _)

theorem target?_call {t : Target} (ht : (resolve g).target? i = some t) :
    i ∈ g.live ∧ ∃ callee args, g.kind i = .call callee args ∧
      g.verdict callee args.length = .target t := by
  obtain ⟨hi, hv⟩ := target?_eq_some.mp ht
  obtain ⟨v, hv, ht⟩ := Option.bind_eq_some_iff.mp hv
  refine ⟨hi, ?_⟩
  unfold Graph.verdict? at hv
  split at hv
  case h_2 => cases hv
  case h_1 callee args hk =>
    obtain rfl := Option.some.inj hv
    refine ⟨callee, args, hk, ?_⟩
    cases hv' : g.verdict callee args.length with
    | target t' =>
      rw [hv'] at ht
      rw [Option.some.inj ht]
    | unlisted => rw [hv'] at ht; cases ht

end CallTable

theorem Known.lookup?_mem {path : String} {n : Nat} {e : Known.Entry} (h : Known.lookup? path n = some e) :
    e ∈ Known.catalog ∧ e.name = path := by
  have hmem : e ∈ Known.catalog.filter fun e => e.name == path := by
    unfold Known.lookup? at h
    rcases Option.or_eq_some_iff.mp h with h | ⟨-, h⟩
    · exact List.mem_of_find?_eq_some h
    · exact List.mem_of_mem_head? (Option.mem_def.mpr h)
  exact ⟨(List.mem_filter.mp hmem).1, eq_of_beq (List.mem_filter.mp hmem).2⟩

namespace Graph

variable {g : Graph} {callee f : Id} {n : Nat}

/-- A call counts as one of a declared function by the name of its callee alone. -/
theorem verdict_user_iff :
    g.verdict callee n = .target (.user f) ↔ g.userFunction? callee = some f := by
  unfold verdict
  split
  case h_1 f' hf => rw [hf, Verdict.target.injEq, Target.user.injEq, Option.some.injEq]
  case h_2 hnone =>
    rw [hnone]
    split <;> simp

theorem verdict_user (h : g.verdict callee n = .target (.user f)) :
    ∃ name, g.identName? callee = some name ∧ f ∈ g.functions ∧ g.functionName? f = some name := by
  unfold verdict at h
  split at h
  case h_1 f' hf =>
    obtain ⟨name, hname, hfind⟩ := Option.bind_eq_some_iff.mp hf
    cases h
    have hf := List.find?_some hfind
    exact ⟨name, hname, List.mem_of_find?_eq_some hfind, eq_of_beq hf⟩
  case h_2 => split at h <;> cases h

/-- **A path is made of names and accesses by name**, and the names are parts of it. -/
theorem kind_of_below_path {n : Nat} {i j : Id} {d : Nat} {path : String}
    (hpath : g.pathTo n i = some path) (hd : g.Below i d j) :
    (∃ name, g.kind j = .ident name ∧ ∀ c ∈ name.toList, c ∈ path.toList) ∨
      ∃ object property, g.kind j = .field object property := by
  -- an identifier has nothing below it
  have leaf : ∀ {k d : Nat} {text : String}, g.kind k = .ident text → g.Below k d j → j = k := by
    intro k d text hk hd
    cases d with
    | zero =>
      cases hd
      rfl
    | succ d =>
      obtain ⟨_, hchild, -⟩ := hd.uncons
      rw [children, hk] at hchild
      cases hchild
  induction n generalizing i d path with
  | zero => cases hpath
  | succ n ih =>
    unfold pathTo at hpath
    split at hpath
    case h_1 name hk =>
      cases hpath
      obtain rfl := leaf hk hd
      exact .inl ⟨path, hk, fun _ hc => hc⟩
    case h_2 object property hk =>
      obtain ⟨head, hhead, hpath⟩ := Option.bind_eq_some_iff.mp hpath
      obtain ⟨tail, htail, hpath⟩ := Option.bind_eq_some_iff.mp hpath
      cases hpath
      simp only [String.toList_append, List.mem_append]
      cases d with
      | zero =>
        cases hd
        exact .inr ⟨object, property, hk⟩
      | succ d =>
        obtain ⟨q, hq, hqd⟩ := hd.uncons
        rw [children, hk] at hq
        rcases List.mem_cons.mp hq with rfl | hq
        · refine (ih hhead hqd).imp_left fun ⟨name, hname, hsub⟩ => ?_
          exact ⟨name, hname, fun c hc => .inl (.inl (hsub c hc))⟩
        · rw [List.mem_singleton.mp hq] at hqd
          have hident := identName?_eq_some.mp htail
          obtain rfl := leaf hident hqd
          exact .inl ⟨tail, hident, fun c hc => .inr hc⟩
    case h_3 => cases hpath

theorem verdict_known {e : Known.Entry} (h : g.verdict callee n = .target (.known e)) :
    e ∈ Known.catalog ∧ g.dottedPath? callee = some e.name := by
  unfold verdict at h
  split at h
  case h_1 => cases h
  case h_2 =>
    split at h
    case h_1 e' he =>
      cases h
      obtain ⟨path, hpath, hlookup⟩ := Option.bind_eq_some_iff.mp he
      obtain ⟨hmem, rfl⟩ := Known.lookup?_mem hlookup
      exact ⟨hmem, hpath⟩
    case h_2 => cases h

theorem userFunction?_of_known {e : Known.Entry} (h : g.verdict callee n = .target (.known e)) :
    g.userFunction? callee = none := by
  unfold verdict at h
  split at h
  case h_1 => cases h
  case h_2 hnone => exact hnone

end Graph

end ShaderScript
