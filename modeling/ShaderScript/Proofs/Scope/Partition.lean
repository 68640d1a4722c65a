import ShaderScript.Proofs.Scope.Renaming

/-!
# Renaming without capture

Passes rename identifiers binding by binding. As long as they never give one name to identifiers
that had different names, every identifier stays in its scope, and the table of bindings is the same
up to the names in it.

* `Graph.RenamedBy`: the new name of an identifier depends on its scope and name, and different
  names stay different.
* `Graph.RenamedBy.declaringScope_eq`, `Graph.RenamedBy.key?_eq`: what that does to one identifier.
* **`Graph.RenamedBy.bindings_resolve`**: the bindings of the renamed program, in the same order and
  with the same scopes and identifiers.
* `Scopes.parts`: what a table says apart from names.
* `Graph.identifiers`: the identifiers that stand for variables.
* `Graph.NamesOnly`: some nodes have other names, and nothing else is different.
-/

namespace ShaderScript

/-- A binding under another name. -/
def Binding.withName (name : String) (b : Binding) : Binding := { b with name }

namespace Scopes

/-- The scopes of a table with the identifiers that belong to each under one name. -/
def parts (s : Scopes) : List (Id × List Id) := s.bindings.map fun b => (b.scope, b.occurrences)

/-- Adding an occurrence to a table under new names is adding it and giving new names, if no other
binding of the scope gets the name. -/
theorem insert_map_withName {ρ : Id × String → String} {i scope : Id} {name : String}
    {bs : List Binding}
    (hapart : ∀ b ∈ bs, b.scope = scope → ρ b.key = ρ (scope, name) → b.name = name) :
    insert i scope (ρ (scope, name)) (bs.map fun b => b.withName (ρ b.key)) =
      (insert i scope name bs).map fun b => b.withName (ρ b.key) := by
  induction bs with
  | nil => rfl
  | cons b bs ih =>
    have htest : (b.withName (ρ b.key)).scope = scope ∧
        (b.withName (ρ b.key)).name = ρ (scope, name) ↔ b.scope = scope ∧ b.name = name := by
      constructor
      · rintro ⟨hs, hn⟩
        exact ⟨hs, hapart b List.mem_cons_self hs hn⟩
      · rintro ⟨rfl, rfl⟩
        exact ⟨rfl, rfl⟩
    have hrest := ih fun b' hb' => hapart b' (List.mem_cons_of_mem _ hb')
    rw [List.map_cons, insert, insert]
    by_cases hb : b.scope = scope ∧ b.name = name
    · rw [if_pos hb, if_pos (htest.mpr hb)]
      rfl
    · rw [if_neg hb, if_neg fun hc => hb (htest.mp hc), hrest]
      rfl

end Scopes

namespace Graph

/-- The identifiers of the program that stand for variables, in pre-order. -/
def identifiers (g : Graph) : List Id := g.live.filter g.isOccurrence

theorem mem_identifiers {g : Graph} {i : Id} : i ∈ g.identifiers ↔
    i ∈ g.live ∧ g.isPropertyName i = false ∧ ∃ name, g.identName? i = some name := by
  unfold identifiers isOccurrence
  rw [List.mem_filter, Bool.and_eq_true, Option.isSome_iff_exists, Bool.not_eq_true']
  exact and_congr_right fun _ => and_comm

/-! ## Bindings under new names -/

/-- Every identifier that stands for a variable has got the name that goes with its scope and name,
and nothing else has happened. Different names stay different. -/
structure RenamedBy (ρ : Id × String → String) (g g' : Graph) : Prop where
  changed : Changed Kind.Renamed g g'
  name : ∀ {i k}, i ∈ g.live → g.key? i = some k → g'.identName? i = some (ρ k)
  apart : ∀ {i j k l}, i ∈ g.live → j ∈ g.live → g.key? i = some k → g.key? j = some l →
    ρ k = ρ l → k.2 = l.2

namespace RenamedBy

variable {g g' : Graph} {ρ : Id × String → String} {i : Id} {scope : Id} {name : String}
  (r : RenamedBy ρ g g') (h : g.IsTree) (hi : i ∈ g.live)

include r h hi

/-- **No identifier is captured**: it belongs to the node that it belonged to. -/
theorem declaringScope_eq (hk : g.key? i = some (scope, name)) :
    g'.declaringScope i (ρ (scope, name)) = scope := by
  obtain ⟨hp, hname, hscope⟩ := key?_eq_some.mp hk
  -- what a live node declares has that node for its scope
  have key : ∀ {a j m}, a ∈ g.live → g.Declares a j → g.identName? j = some m →
      j ∈ g.live ∧ g.key? j = some (a, m) := by
    intro a j m ha hj hm
    have hdecl := hj.param_or_variable h ha
    exact ⟨hdecl.elim (·.live h) (·.live h), key?_eq_some.mpr
      ⟨isPropertyName_of_declared h hdecl, hm, hj.declaringScope h ha hm⟩⟩
  conv_rhs => rw [← hscope]
  refine r.changed.declaringScope_congr (fun a ha hd => ?_) fun hd => ?_
  · obtain ⟨j, hj, hjname⟩ := declares_iff.mp hd
    rw [r.changed.declares_iff] at hj
    have hsome := r.changed.isSome_identName? j
    rw [hjname, Option.isSome_some, eq_comm, Option.isSome_iff_exists] at hsome
    obtain ⟨m, hm⟩ := hsome
    obtain ⟨hjl, hjk⟩ := key (h.ancestor_below hi ha).1 hj hm
    have hsame : ρ (a, m) = ρ (scope, name) :=
      Option.some.inj ((r.name hjl hjk).symm.trans hjname)
    exact declares_iff.mpr ⟨j, hj, hm.trans (congrArg some (r.apart hjl hi hjk hk hsame))⟩
  · obtain ⟨j, hj, hjname⟩ := declares_iff.mp hd
    have hal : g.declaringScope i name ∈ g.live := by
      unfold declaringScope
      cases hf : (g.ancestors i).find? (g.declares name) with
      | none => exact h.root_live
      | some a => exact (h.ancestor_below hi (List.mem_of_find?_eq_some hf)).1
    obtain ⟨hjl, hjk⟩ := key hal hj hjname
    rw [hscope] at hjk
    exact declares_iff.mpr ⟨j, r.changed.declares_iff.mpr hj, r.name hjl hjk⟩

theorem key?_eq : g'.key? i = (g.key? i).map fun k => (k.1, ρ k) := by
  cases hk : g.key? i with
  | some k =>
    have hp := (key?_eq_some.mp hk).1
    exact key?_eq_some.mpr ⟨(r.changed.isPropertyName_eq i).trans hp, r.name hi hk,
      r.declaringScope_eq h hi hk⟩
  | none =>
    unfold key? at hk ⊢
    rw [r.changed.isPropertyName_eq]
    split_ifs at hk ⊢ with hp
    · rfl
    · have hnone := Option.map_eq_none_iff.mp hk
      have hsome := r.changed.isSome_identName? i
      rw [hnone, Option.isSome_none, Option.isSome_eq_false_iff, Option.isNone_iff_eq_none] at hsome
      rw [hsome]
      rfl

end RenamedBy

/-- **The bindings of the renamed program** are those of the original under new names, in the same
order and with the same scopes and identifiers. -/
theorem RenamedBy.bindings_resolve {g g' : Graph} {ρ : Id × String → String} (r : RenamedBy ρ g g')
    (h : g.IsTree) : (Scopes.resolve g').bindings =
      (Scopes.resolve g).bindings.map fun b => b.withName (ρ b.key) := by
  have hall : ∀ (is : List Id) (bs : List Binding), (∀ i ∈ is, i ∈ g.live) →
      (∀ b ∈ bs, ∃ j ∈ g.live, g.key? j = some b.key) →
      is.foldl (Scopes.add g') (bs.map fun b => b.withName (ρ b.key)) =
        (is.foldl (Scopes.add g) bs).map fun b => b.withName (ρ b.key) := by
    intro is
    induction is with
    | nil => exact fun _ _ _ => rfl
    | cons i is ih =>
      intro bs hlive hbs
      have hi := hlive i List.mem_cons_self
      have hrest := fun j hj => hlive j (List.mem_cons_of_mem _ hj)
      rw [List.foldl_cons, List.foldl_cons, Scopes.add_eq, Scopes.add_eq, r.key?_eq h hi]
      cases hk : g.key? i with
      | none => exact ih bs hrest hbs
      | some k =>
        obtain ⟨scope, name⟩ := k
        dsimp only [Option.map_some]
        rw [Scopes.insert_map_withName fun b hb _ he => ?apart]
        case apart =>
          obtain ⟨j, hj, hkj⟩ := hbs b hb
          exact r.apart hj hi hkj hk he
        refine ih _ hrest fun b hb => ?_
        have hmem : b.key ∈ (Scopes.insert i scope name bs).map Binding.key :=
          List.mem_map_of_mem hb
        rw [Scopes.keys_insert] at hmem
        -- every binding of the table has the key of some identifier
        have hcases : b.key ∈ bs.map Binding.key ∨ b.key = (scope, name) := by
          split_ifs at hmem
          · exact .inl hmem
          · simpa using hmem
        rcases hcases with hold | hnew
        · obtain ⟨b', hb', he⟩ := List.mem_map.mp hold
          exact he ▸ hbs b' hb'
        · exact ⟨i, hi, hnew ▸ hk⟩
  unfold Scopes.resolve
  rw [r.changed.live_eq]
  exact hall g.live [] (fun _ => id) (by simp)

/-- The renamed program has the scopes of the original, with the same identifiers in each. -/
theorem RenamedBy.parts_resolve {g g' : Graph} {ρ : Id × String → String} (r : RenamedBy ρ g g')
    (h : g.IsTree) : (Scopes.resolve g').parts = (Scopes.resolve g).parts := by
  unfold Scopes.parts
  rw [r.bindings_resolve h, List.map_map]
  rfl

/-! ## Nothing but names -/

/-- Some of the nodes with a property are identifiers that have got another name, and nothing else
is different. -/
structure NamesOnly (p : Id → Prop) (g g' : Graph) : Prop where
  root : g'.root = g.root
  size : g'.size = g.size
  node : ∀ i, g'.node i = g.node i ∨
    p i ∧ ∃ old new, g.kind i = .ident old ∧ g'.node i = { g.node i with kind := .ident new }

namespace NamesOnly

variable {p : Id → Prop} {g g' : Graph}

theorem refl (p : Id → Prop) (g : Graph) : NamesOnly p g g := ⟨rfl, rfl, fun _ => .inl rfl⟩

variable (h : NamesOnly p g g')

include h

theorem changed : Changed Kind.Renamed g g' := by
  refine ⟨h.root, h.size, fun i => ?_, fun i => ?_⟩
  · unfold parent?
    rcases h.node i with he | ⟨-, old, new, -, he⟩ <;> rw [he]
  · rcases h.node i with he | ⟨-, old, new, hk, he⟩
    · unfold kind
      rw [he]
      exact .refl _
    · rw [hk, kind, he]
      exact .ident old new

theorem rename {i : Id} (hi : p i) (name : String) : NamesOnly p g (g'.rename i name) := by
  unfold Graph.rename
  split
  case h_2 => exact h
  case h_1 old hk =>
    refine ⟨h.root, (size_modify _ _ _).trans h.size, fun j => ?_⟩
    by_cases hij : i = j
    · subst hij
      have hnode : (g'.replace i (.ident name)).node i = { g'.node i with kind := .ident name } :=
        node_modify_self _ _ (lt_size_of_kind (hk ▸ nofun))
      right
      rcases h.node i with he | ⟨-, old', new, hk', he⟩
      · refine ⟨hi, old, name, ?_, by rw [hnode, he]⟩
        rw [← hk, kind, kind, he]
      · exact ⟨hi, old', name, hk', by rw [hnode, he]⟩
    · rw [Graph.replace, node_modify_of_ne _ _ hij]
      exact h.node j

end NamesOnly

end Graph

end ShaderScript
