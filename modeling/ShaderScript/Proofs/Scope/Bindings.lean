import Mathlib.Data.List.Nodup
import ShaderScript.Scope

/-!
# What the bindings of a program are

The table of bindings is filled one node at a time. What it holds in the end can be said without
the table: two identifiers share a binding exactly when they have the same scope and name.

* `Graph.key?`: the scope and name of an identifier that stands for a variable.
* `Scopes.listed`: the identifiers that a table lists under a key, with one equation for each
  operation on tables.
* **`Scopes.mem_occurrences_iff`**: the identifiers that share a binding with a given one.
* `Scopes.mem_binding_iff`: the identifiers of one binding.
-/

namespace ShaderScript

/-- The scope and name that a binding stands for. -/
def Binding.key (b : Binding) : Id × String := (b.scope, b.name)

/-- The scope and name of an identifier that stands for a variable. -/
def Graph.key? (g : Graph) (i : Id) : Option (Id × String) :=
  if g.isPropertyName i then none
  else (g.identName? i).map fun name => (g.declaringScope i name, name)

theorem Graph.key?_eq_some {g : Graph} {i : Id} {scope : Id} {name : String} :
    g.key? i = some (scope, name) ↔
      g.isPropertyName i = false ∧ g.identName? i = some name ∧
        g.declaringScope i name = scope := by
  unfold Graph.key?
  by_cases hp : g.isPropertyName i = true
  · simp [hp]
  · rw [if_neg hp]
    simp only [Bool.not_eq_true] at hp
    constructor
    · intro h
      obtain ⟨n, hn, he⟩ := Option.map_eq_some_iff.mp h
      cases he
      exact ⟨hp, hn, rfl⟩
    · rintro ⟨-, hn, rfl⟩
      rw [hn, Option.map_some]

namespace Scopes

variable {g : Graph}

/-! ## Tables -/

/-- The identifiers that a table lists under a key. -/
def listed (k : Id × String) : List Binding → List Id
  | [] => []
  | b :: bs => if b.key = k then b.occurrences else listed k bs

theorem listed_insert (k : Id × String) (i scope : Id) (name : String) (bs : List Binding) :
    listed k (insert i scope name bs) =
      listed k bs ++ if (scope, name) = k then [i] else [] := by
  induction bs with
  | nil => rfl
  | cons b bs ih =>
    unfold insert
    split_ifs with h hk hk
    · have hb : b.key = k := by rw [← hk, Binding.key, h.1, h.2]
      simp only [listed]
      rw [if_pos hb]
      exact if_pos hb
    · have hb : b.key ≠ k := fun hb => hk (by rw [← hb, Binding.key, h.1, h.2])
      simp only [listed]
      rw [if_neg hb, List.append_nil]
      exact if_neg hb
    · have hb : b.key ≠ k := fun hb => h (by rw [← hk] at hb; exact Prod.mk.inj hb)
      rw [if_pos hk] at ih
      simp only [listed]
      rw [if_neg hb, if_neg hb, ih]
    · rw [if_neg hk] at ih
      simp only [listed]
      split_ifs
      · rw [List.append_nil]
      · exact ih

theorem keys_insert (i scope : Id) (name : String) (bs : List Binding) :
    (insert i scope name bs).map Binding.key =
      if (scope, name) ∈ bs.map Binding.key then bs.map Binding.key
      else bs.map Binding.key ++ [(scope, name)] := by
  induction bs with
  | nil => simp [insert, Binding.key]
  | cons b bs ih =>
    unfold insert
    by_cases h : b.scope = scope ∧ b.name = name
    · have hb : (scope, name) = b.key := by rw [Binding.key, h.1, h.2]
      rw [if_pos h, if_pos (by rw [hb]; exact List.mem_cons_self)]
      rfl
    · have hb : (scope, name) ≠ b.key := fun hb => h (Prod.mk.inj hb.symm)
      rw [if_neg h, List.map_cons, ih, List.map_cons]
      simp only [List.mem_cons, hb, false_or]
      split_ifs <;> rfl

theorem nodup_keys_insert {bs : List Binding} (i scope : Id) (name : String)
    (h : (bs.map Binding.key).Nodup) : ((insert i scope name bs).map Binding.key).Nodup := by
  rw [keys_insert]
  split_ifs with hk
  · exact h
  · exact List.nodup_append.mpr ⟨h, List.nodup_singleton _, by
      rintro a ha b hb rfl
      rw [List.mem_singleton] at hb
      exact hk (hb ▸ ha)⟩

theorem add_eq (bs : List Binding) (i : Id) :
    add g bs i = match g.key? i with
      | some (scope, name) => insert i scope name bs
      | none => bs := by
  unfold add Graph.key?
  cases g.identName? i with
  | none => split_ifs <;> rfl
  | some name => split_ifs <;> rfl

theorem listed_foldl_add (k : Id × String) (is : List Id) (bs : List Binding) :
    listed k (is.foldl (add g) bs) = listed k bs ++ is.filter fun i => g.key? i = some k := by
  induction is generalizing bs with
  | nil => simp
  | cons i is ih =>
    rw [List.foldl_cons, ih, add_eq, List.filter_cons]
    cases hi : g.key? i with
    | none => simp
    | some k' =>
      obtain ⟨scope, name⟩ := k'
      simp only [listed_insert, List.append_assoc, Option.some.injEq, decide_eq_true_eq]
      split_ifs <;> simp

theorem nodup_keys_foldl_add (is : List Id) {bs : List Binding}
    (h : (bs.map Binding.key).Nodup) : ((is.foldl (add g) bs).map Binding.key).Nodup := by
  induction is generalizing bs with
  | nil => exact h
  | cons i is ih =>
    rw [List.foldl_cons]
    apply ih
    rw [add_eq]
    split
    · exact nodup_keys_insert _ _ _ h
    · exact h

theorem listed_key {bs : List Binding} {b : Binding} (h : (bs.map Binding.key).Nodup)
    (hb : b ∈ bs) : listed b.key bs = b.occurrences := by
  induction bs with
  | nil => cases hb
  | cons a bs ih =>
    rw [List.map_cons, List.nodup_cons] at h
    simp only [listed]
    rcases List.mem_cons.mp hb with rfl | hb'
    · rw [if_pos rfl]
    · have hne : a.key ≠ b.key := fun he => h.1 (he ▸ List.mem_map_of_mem hb')
      rw [if_neg hne, ih h.2 hb']

theorem exists_of_mem_listed {k : Id × String} {bs : List Binding} {i : Id}
    (h : i ∈ listed k bs) : ∃ b ∈ bs, b.key = k ∧ i ∈ b.occurrences := by
  induction bs with
  | nil => cases h
  | cons b bs ih =>
    simp only [listed] at h
    split_ifs at h with hk
    · exact ⟨b, List.mem_cons_self, hk, h⟩
    · obtain ⟨b', hb', hk', hi⟩ := ih h
      exact ⟨b', List.mem_cons_of_mem _ hb', hk', hi⟩

/-! ## The bindings of a program -/

theorem nodup_keys (g : Graph) : ((resolve g).bindings.map Binding.key).Nodup :=
  nodup_keys_foldl_add g.live (by simp)

/-- **The identifiers of one binding.** -/
theorem mem_binding_iff {b : Binding} (hb : b ∈ (resolve g).bindings) {i : Id} :
    i ∈ b.occurrences ↔ i ∈ g.live ∧ g.key? i = some b.key := by
  rw [← listed_key (nodup_keys g) hb]
  unfold resolve
  rw [listed_foldl_add]
  simp [listed]

theorem exists_binding {i : Id} {k : Id × String} (hi : i ∈ g.live) (hk : g.key? i = some k) :
    ∃ b ∈ (resolve g).bindings, b.key = k ∧ i ∈ b.occurrences := by
  apply exists_of_mem_listed
  unfold resolve
  rw [listed_foldl_add]
  simp [listed, hi, hk]

theorem bindingOf?_eq_some {i : Id} {b : Binding} (h : (resolve g).bindingOf? i = some b) :
    b ∈ (resolve g).bindings ∧ i ∈ b.occurrences := by
  have hi := List.find?_some h
  exact ⟨List.mem_of_find?_eq_some h, by simpa using hi⟩

theorem bindingOf?_key {i : Id} {b : Binding} (h : (resolve g).bindingOf? i = some b) :
    g.key? i = some b.key :=
  ((mem_binding_iff (bindingOf?_eq_some h).1).mp (bindingOf?_eq_some h).2).2

theorem exists_bindingOf? {i : Id} {k : Id × String} (hi : i ∈ g.live) (hk : g.key? i = some k) :
    ∃ b, (resolve g).bindingOf? i = some b ∧ b.key = k := by
  obtain ⟨b, hb, -, hib⟩ := exists_binding hi hk
  cases h : (resolve g).bindingOf? i with
  | none =>
    have := List.find?_eq_none.mp h b hb
    simp [hib] at this
  | some b' =>
    refine ⟨b', rfl, ?_⟩
    have := bindingOf?_key h
    rw [hk] at this
    exact (Option.some.inj this).symm

/-- **Two identifiers share a binding exactly when they have the same scope and name.** -/
theorem mem_occurrences_iff {i j : Id} : j ∈ (resolve g).occurrences i ↔
    j = i ∨ i ∈ g.live ∧ j ∈ g.live ∧ ∃ k, g.key? i = some k ∧ g.key? j = some k := by
  unfold occurrences
  cases h : (resolve g).bindingOf? i with
  | none =>
    rw [List.mem_singleton]
    refine ⟨.inl, ?_⟩
    rintro (rfl | ⟨hi, -, k, hk, -⟩)
    · rfl
    · obtain ⟨b, hb, -⟩ := exists_bindingOf? hi hk
      rw [h] at hb
      cases hb
  | some b =>
    obtain ⟨hb, hi⟩ := bindingOf?_eq_some h
    have hib := (mem_binding_iff hb).mp hi
    simp only [mem_binding_iff hb]
    constructor
    · rintro ⟨hj, hk⟩
      exact .inr ⟨hib.1, hj, b.key, hib.2, hk⟩
    · rintro (rfl | ⟨-, hj, k, hki, hkj⟩)
      · exact hib
      · rw [hib.2] at hki
        cases hki
        exact ⟨hj, hkj⟩

theorem self_mem_occurrences (i : Id) : i ∈ (resolve g).occurrences i := by
  rw [mem_occurrences_iff]
  exact .inl rfl

theorem live_of_mem_occurrences {i j : Id} (hi : i ∈ g.live) (h : j ∈ (resolve g).occurrences i) :
    j ∈ g.live := by
  rw [mem_occurrences_iff] at h
  rcases h with rfl | ⟨-, hj, -⟩
  · exact hi
  · exact hj

theorem mem_occurrences_symm {i j : Id} (h : j ∈ (resolve g).occurrences i) :
    i ∈ (resolve g).occurrences j := by
  rw [mem_occurrences_iff] at h ⊢
  rcases h with rfl | ⟨hi, hj, k, hki, hkj⟩
  · exact .inl rfl
  · exact .inr ⟨hj, hi, k, hkj, hki⟩

theorem mem_occurrences_trans {i j k : Id} (h : j ∈ (resolve g).occurrences i)
    (h' : k ∈ (resolve g).occurrences j) : k ∈ (resolve g).occurrences i := by
  rw [mem_occurrences_iff] at h h' ⊢
  rcases h with rfl | ⟨hi, hj, m, hmi, hmj⟩
  · exact h'
  · rcases h' with rfl | ⟨-, hk, m', hmj', hmk⟩
    · exact .inr ⟨hi, hj, m, hmi, hmj⟩
    · rw [hmj] at hmj'
      cases hmj'
      exact .inr ⟨hi, hk, m, hmi, hmk⟩

theorem mem_occurrences_of_binding {b : Binding} {i j : Id} (hb : b ∈ (resolve g).bindings)
    (hi : i ∈ b.occurrences) (hj : j ∈ b.occurrences) : j ∈ (resolve g).occurrences i := by
  rw [mem_binding_iff hb] at hi hj
  rw [mem_occurrences_iff]
  exact .inr ⟨hi.1, hj.1, b.key, hi.2, hj.2⟩

end Scopes

end ShaderScript
