import ShaderScript.Builder
import ShaderScript.Proofs.Flatten.Params
import ShaderScript.Proofs.Scope.Partition

/-!
# Marks keep bindings

All renaming goes by the table of scopes of the program before it. In a program in which no
identifier looks marked yet, the table stays true: every identifier stays in its scope, and the
bindings only get other names.

* `Graph.markedName`: the name that marks give to a binding.
* `Graph.identName?_marked`: every identifier of a binding gets that name.
* `Graph.out_marked`: the flags on parameters.
* `Graph.Remarked`: a program with its bindings under marked names.
* **`marks_keep_bindings`**: marks give that, whatever scopes are nested.
-/

namespace ShaderScript

open Graph

variable {g : Graph} {b : Binding} {j : Id}

/-! ## Names of bindings -/

/-- The name that marks give to a binding. A variable counts for more than an `out` parameter. -/
def Graph.markedName (g : Graph) (b : Binding) : String :=
  if ∃ v ∈ b.occurrences, g.IsVariable v then localMark ++ b.name
  else if ∃ p ∈ b.occurrences, g.IsOut p then outParamName
  else b.name

/-- No identifier that stands for a variable has a name that marks could give. -/
def Graph.NoMarks (g : Graph) : Prop := ∀ i ∈ g.identifiers, ∀ name ∈ g.identName? i,
  name ≠ outParamName ∧ ¬ localMark.toList <+: name.toList

instance (g : Graph) : Decidable g.NoMarks :=
  inferInstanceAs (Decidable (∀ i ∈ g.identifiers, ∀ name ∈ g.identName? i, _))

theorem localMark_prefix (bare : String) : localMark.toList <+: (localMark ++ bare).toList := by
  rw [String.toList_append]
  exact List.prefix_append _ _

theorem outParamName_ne_localMark (bare : String) : outParamName ≠ localMark ++ bare := by
  have hno : ¬ localMark.toList <+: outParamName.toList := by decide +kernel
  exact fun he => hno (he ▸ localMark_prefix bare)

theorem mem_identifiers_of_mem_binding (hb : b ∈ (Scopes.resolve g).bindings)
    (hj : j ∈ b.occurrences) : j ∈ g.identifiers ∧ g.identName? j = some b.name := by
  obtain ⟨hjl, hkj⟩ := (Scopes.mem_binding_iff hb).mp hj
  obtain ⟨hp, hname, -⟩ := key?_eq_some.mp hkj
  exact ⟨mem_identifiers.mpr ⟨hjl, hp, b.name, hname⟩, hname⟩

theorem markedName_cases (hb : b ∈ (Scopes.resolve g).bindings) :
    g.markedName b = localMark ++ b.name ∨ b.name = "out" ∧ g.markedName b = outParamName ∨
      g.markedName b = b.name := by
  unfold markedName
  split_ifs with hvar hout
  · exact .inl rfl
  · obtain ⟨p, hp, hout⟩ := hout
    have hname := (mem_identifiers_of_mem_binding hb hp).2
    exact .inr (.inl ⟨Option.some.inj (hname.symm.trans hout.identName?), rfl⟩)
  · exact .inr (.inr rfl)

theorem Graph.NoMarks.markedName_inj {b' : Binding} {j' : Id} (hno : g.NoMarks)
    (hb : b ∈ (Scopes.resolve g).bindings) (hj : j ∈ b.occurrences)
    (hb' : b' ∈ (Scopes.resolve g).bindings) (hj' : j' ∈ b'.occurrences)
    (he : g.markedName b = g.markedName b') : b.name = b'.name := by
  have plain : ∀ {c : Binding} {i : Id}, c ∈ (Scopes.resolve g).bindings → i ∈ c.occurrences →
      c.name ≠ outParamName ∧ ¬ localMark.toList <+: c.name.toList := by
    intro c i hc hi
    obtain ⟨hmem, hname⟩ := mem_identifiers_of_mem_binding hc hi
    exact hno i hmem c.name hname
  rcases markedName_cases hb with hm | ⟨hn, hm⟩ | hm <;>
    rcases markedName_cases hb' with hm' | ⟨hn', hm'⟩ | hm' <;> rw [hm, hm'] at he
  · exact (String.append_right_inj localMark).mp he
  · exact absurd he.symm (outParamName_ne_localMark b.name)
  · exact absurd (he ▸ localMark_prefix b.name) (plain hb' hj').2
  · exact absurd he (outParamName_ne_localMark b'.name)
  · rw [hn, hn']
  · exact absurd he.symm (plain hb' hj').1
  · exact absurd (he ▸ localMark_prefix b'.name) (plain hb hj).2
  · exact absurd he (plain hb hj).1
  · exact he

theorem exists_out_iff (hb : b ∈ (Scopes.resolve g).bindings) (hj : j ∈ b.occurrences) :
    (∃ p ∈ g.functions.flatMap g.outParams, j ∈ (Scopes.resolve g).occurrences p) ↔
      ∃ p ∈ b.occurrences, g.IsOut p := by
  constructor
  · rintro ⟨p, hp, hjp⟩
    refine ⟨p, ?_, mem_flatMap_outParams.mp hp⟩
    obtain ⟨-, hkj⟩ := (Scopes.mem_binding_iff hb).mp hj
    rcases Scopes.mem_occurrences_iff.mp hjp with rfl | ⟨hpl, -, k, hkp, hkj'⟩
    · exact hj
    · rw [hkj] at hkj'
      cases hkj'
      exact (Scopes.mem_binding_iff hb).mpr ⟨hpl, hkp⟩
  · rintro ⟨p, hp, hout⟩
    exact ⟨p, mem_flatMap_outParams.mpr hout, Scopes.mem_occurrences_of_binding hb hp hj⟩

section Trees

variable (h : g.IsTree)

include h

theorem Graph.IsOut.isParam {p : Id} (hp : g.IsOut p) : g.IsParam p := by
  obtain ⟨f, hf, hp⟩ := hp
  obtain ⟨name, params, body, hk, hmem, -⟩ := mem_outParams.mp hp
  exact ⟨f, h.body_live (mem_functions.mp hf).1, name, params, body, hk, hmem⟩

/-- **Every identifier of a binding gets the name that marks give to the binding.** -/
theorem Graph.identName?_marked (hb : b ∈ (Scopes.resolve g).bindings) (hj : j ∈ b.occurrences) :
    g.marked.identName? j = some (g.markedName b) := by
  obtain ⟨hjl, hkj⟩ := (Scopes.mem_binding_iff hb).mp hj
  unfold markedName
  by_cases hvar : ∃ v ∈ b.occurrences, g.IsVariable v
  · rw [if_pos hvar]
    obtain ⟨v, hv, hvar⟩ := hvar
    exact identName?_of_variable h hvar ((Scopes.mem_binding_iff hb).mp hv).2 hjl hkj
  · rw [if_neg hvar, identName?_marked_of_no_variable, identName?_markOutParams h,
      if_congr (exists_out_iff hb hj) rfl rfl, (key?_eq_some.mp hkj).2.1, apply_ite some]
    intro v k hv hkv _ hkj'
    rw [hkj] at hkj'
    cases hkj'
    exact hvar ⟨v, (Scopes.mem_binding_iff hb).mpr ⟨hv.live h, hkv⟩, hv⟩

theorem Graph.identName?_marked_of_not_mem (hj : j ∉ g.identifiers) :
    g.marked.identName? j = g.identName? j := by
  have hkey : j ∈ g.live → ∀ k, g.key? j ≠ some k := fun hjl k hk =>
    hj (mem_identifiers.mpr ⟨hjl, (key?_eq_some.mp hk).1, k.2, (key?_eq_some.mp hk).2.1⟩)
  rw [identName?_marked_of_no_variable fun _ k _ _ hjl => hkey hjl k, identName?_markOutParams h,
    if_neg]
  rintro ⟨p, hp, hjp⟩
  have hparam := (mem_flatMap_outParams.mp hp).isParam h
  rcases Scopes.mem_occurrences_iff.mp hjp with rfl | ⟨-, hjl, k, -, hkj⟩
  · obtain ⟨f, hf, hp⟩ := mem_flatMap_outParams.mp hp
    exact hkey (hparam.live h) _ (key?_of_mem_outParams h hf hp)
  · exact hkey hjl k hkj

end Trees

/-! ## Flags -/

theorem Graph.out_renameAll (x : Graph) (is : List Id) (name : String) (j : Id) :
    ((x.renameAll is name).node j).out = (x.node j).out := by
  unfold renameAll
  refine List.foldlRecOn (motive := fun y : Graph => (y.node j).out = (x.node j).out) is _ rfl
    fun y hy i _ => ?_
  rw [← hy, rename]
  split
  case h_1 =>
    refine node_modify_congr y _ Node.out ?_ i j
    exact fun _ => rfl
  case h_2 => rfl

theorem Graph.out_foldl_markOutParam (s : Scopes) {ps : List Id} (x : Graph)
    (hps : ∀ p ∈ ps, p < x.size) (j : Id) :
    ((ps.foldl (fun x p => x.markOutParam s p) x).node j).out = true ↔
      (x.node j).out = true ∨ j ∈ ps := by
  induction ps generalizing x with
  | nil => simp
  | cons p ps ih =>
    have hsize : (x.markOutParam s p).size = x.size := (changed_markOutParam s x p).size
    rw [List.foldl_cons, ih _ fun q hq => hsize ▸ hps q (List.mem_cons_of_mem _ hq),
      List.mem_cons, ← or_assoc]
    refine or_congr_left ?_
    rw [markOutParam, out_renameAll]
    by_cases hpj : p = j
    · subst hpj
      rw [node_modify_self _ _ (hps p List.mem_cons_self)]
      simp
    · rw [node_modify_of_ne _ _ hpj]
      simp [Ne.symm hpj]

/-- **Marks flag the `out` parameters of the top-level functions** and nothing else. -/
theorem Graph.out_marked (h : g.IsTree) (j : Id) :
    (g.marked.node j).out = true ↔ (g.node j).out = true ∨ g.IsOut j := by
  have hlocals : (g.marked.node j).out =
      ((g.markOutParams (Scopes.resolve g)).node j).out := by
    unfold marked markLocals
    refine List.foldlRecOn (motive := fun y : Graph => (y.node j).out =
      ((g.markOutParams (Scopes.resolve g)).node j).out) _ _ rfl fun y hy d _ => ?_
    rcases y.markLocal_cases (Scopes.resolve g) d with he | ⟨_, _, _, _, _, he⟩
    · rw [he, hy]
    · rw [he, out_renameAll, hy]
  rw [hlocals, markOutParams_eq h, out_foldl_markOutParam, mem_flatMap_outParams]
  exact fun p hp => h.lt_size (((mem_flatMap_outParams.mp hp).isParam h).live h)

/-! ## The table -/

/-- The first program with its bindings under marked names is the second. -/
structure Graph.Remarked (g g' : Graph) : Prop where
  /-- Nodes differ in their names and flags at most. -/
  changed : Changed Kind.Renamed g g'
  /-- The bindings come in the same order, with the same scopes and identifiers. -/
  bindings : (Scopes.resolve g').bindings =
    (Scopes.resolve g).bindings.map fun b => b.withName (g.markedName b)
  /-- Every identifier of a binding has the marked name of the binding. -/
  named : ∀ b ∈ (Scopes.resolve g).bindings, ∀ i ∈ b.occurrences,
    g'.identName? i = some (g.markedName b)
  /-- Names of properties stay. -/
  kept : ∀ i, i ∉ g.identifiers → g'.identName? i = g.identName? i
  /-- The `out` parameters of the top-level functions get a flag. -/
  flagged : ∀ i, (g'.node i).out = true ↔ (g.node i).out = true ∨ g.IsOut i

/-- **Marks keep bindings**: identifiers stay together in their scopes under marked names. -/
theorem marks_keep_bindings (h : g.IsTree) (hno : g.NoMarks) :
    g.Remarked ((g.markOutParams (Scopes.resolve g)).markLocals (Scopes.resolve g)) := by
  change g.Remarked g.marked
  have hlisted : ∀ b ∈ (Scopes.resolve g).bindings,
      g.markedName ⟨b.key.2, b.key.1, Scopes.listed b.key (Scopes.resolve g).bindings⟩ =
        g.markedName b := fun b hb => by
    rw [Scopes.listed_key (Scopes.nodup_keys g) hb]
    rfl
  have hrenamed : RenamedBy (fun k =>
      g.markedName ⟨k.2, k.1, Scopes.listed k (Scopes.resolve g).bindings⟩) g g.marked := by
    refine ⟨(marked_marked g).changed, fun {i k} hi hk => ?_, fun {i j k l} hi hj hk hl he => ?_⟩
    · obtain ⟨b, hb, rfl, hib⟩ := Scopes.exists_binding hi hk
      rw [hlisted b hb, identName?_marked h hb hib]
    · obtain ⟨b, hb, rfl, hib⟩ := Scopes.exists_binding hi hk
      obtain ⟨b', hb', rfl, hjb'⟩ := Scopes.exists_binding hj hl
      rw [hlisted b hb, hlisted b' hb'] at he
      exact hno.markedName_inj hb hib hb' hjb' he
  refine ⟨hrenamed.changed, ?_, fun b hb i hi => identName?_marked h hb hi,
    fun i hi => identName?_marked_of_not_mem h hi, out_marked h⟩
  rw [hrenamed.bindings_resolve h]
  exact List.map_congr_left fun b hb => by rw [hlisted b hb]

/-- The program `function f(out, x) { x = x + 1; { var x = out.x; out = x; } }` and
`function g(out) { if (out) var out = g; }`, with a variable inside the scope of its namesake, and
one that shares a binding with a parameter. -/
def nestedNames : Graph := Build.finish do
  let step ← Build.assign .set (← Build.ident "x")
    (← Build.binary .add (← Build.ident "x") (← Build.num "1"))
  let inner ← Build.var "x" (some (← Build.field (← Build.ident "out") "x"))
  let write ← Build.assign .set (← Build.ident "out") (← Build.ident "x")
  let block ← Build.block [inner, ← Build.exprStmt write]
  let _ ← Build.function "f" ["out", "x"] [← Build.exprStmt step, block]
  let branch ← Build.ifElse (← Build.ident "out")
    (← Build.var "out" (some (← Build.ident "g"))) none
  let _ ← Build.function "g" ["out"] [branch]

/-- Only the inner variable gets the mark of its name, and a parameter that shares a binding with a
variable gets its flag all the same. -/
theorem marks_keep_bindings_nestedNames : nestedNames.IsTree ∧ nestedNames.NoMarks ∧
    nestedNames.Remarked ((nestedNames.markOutParams (Scopes.resolve nestedNames)).markLocals
      (Scopes.resolve nestedNames)) ∧
    (Scopes.resolve nestedNames).bindings.map Binding.name =
      ["f", "out", "x", "x", "g", "out"] ∧
    (Scopes.resolve nestedNames.marked).bindings.map Binding.name =
      ["f", "out_param", "x", "_local_x", "g", "_local_out"] ∧
    (nestedNames.live.filter fun i => (nestedNames.marked.node i).out).map
      nestedNames.marked.identName? = [some "out_param", some "_local_out"] := by
  have h : nestedNames.IsTree := by decide +kernel
  have hno : nestedNames.NoMarks := by decide +kernel
  exact ⟨h, hno, marks_keep_bindings h hno, by decide +kernel, by decide +kernel,
    by decide +kernel⟩

end ShaderScript
