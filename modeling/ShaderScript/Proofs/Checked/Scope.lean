import ShaderScript.Proofs.Checked.Walk

/-!
# Checked scopes

A binding is looked up by its number, which each of its occurrences knows. The numbers are given
while the table grows. They stay right, as bindings are added at the end and never leave.

* `Checked.Table`: bindings, with the number of the binding of each occurrence.
* `Checked.Table.get`: the binding with a number, if there is one.
* `Checked.Numbered`: every number is that of the binding that its occurrence belongs to.
* **`Checked.resolve_ok`**: the table of a program is numbered.
* `Checked.binding?_eq`, `Checked.occurrences_eq`: no lookup in it fails.
-/

namespace ShaderScript

namespace Graph

variable {g : Graph} {i j : Id}

theorem occurrences_lt (h : g.InRange) (hi : i < g.size) (hj : j ∈ (Scopes.resolve g).occurrences i) :
    j < g.size := by
  rcases Scopes.mem_occurrences_iff.mp hj with rfl | ⟨-, hl, -⟩
  · exact hi
  · exact h.lt_size hl

theorem bindingOf?_lt (h : g.InRange) {b : Binding} (hb : (Scopes.resolve g).bindingOf? i = some b)
    (hj : j ∈ b.occurrences) : j < g.size :=
  h.lt_size ((Scopes.mem_binding_iff (Scopes.bindingOf?_eq_some hb).1).mp hj).1

end Graph

namespace Checked

/-! ## Declarations -/

section Declarations

variable (g : Graph)

/-- Whether a statement is a `var` with a declarator of `name`. -/
def declaresVar (name : String) (stmt : Id) : Checked Bool := do
  match ← kind g stmt with
  | .varDecl declarators => declarators.anyM fun d => do
    match ← kind g d with
    | .declarator id _ => return (← identName? g id) == some name
    | _ => return false
  | _ => return false

/-- Whether a node declares `name` for what stands below it. -/
def declares (name : String) (scope : Id) : Checked Bool := do
  match ← kind g scope with
  | .function _ params _ => params.anyM fun p => do return (← identName? g p) == some name
  | .program body | .block body => body.anyM (declaresVar g name)
  | .forLoop (some init) _ _ _ => declaresVar g name init
  | _ => return false

/-- The nearest node around `i` that declares `name`, or the program. -/
def declaringScope (i : Id) (name : String) : Checked Id := do
  return (← (← ancestors g i).findM? (declares g name)).getD g.root

variable {g} {i : Id} {name : String}

theorem declaresVar_eq (h : g.InRange) (hi : i < g.size) :
    declaresVar g name i = .ok (g.declaresVar name i) := by
  have hc := h.kind_children_lt i
  unfold declaresVar Graph.declaresVar
  rw [kind_eq hi, ok_bind]
  generalize g.kind i = k at hc
  cases k
  case varDecl ds =>
    refine anyM_ok fun d hd => ?_
    have hn := h.kind_children_lt d
    rw [kind_eq (hc d hd), ok_bind]
    generalize g.kind d = k at hn
    cases k
    case declarator id init =>
      dsimp only
      rw [identName?_eq (hn id List.mem_cons_self)]
      rfl
    all_goals rfl
  all_goals rfl

theorem declares_eq (h : g.InRange) (hi : i < g.size) :
    declares g name i = .ok (g.declares name i) := by
  have hc := h.kind_children_lt i
  unfold declares Graph.declares
  rw [kind_eq hi, ok_bind]
  generalize g.kind i = k at hc
  cases k
  case function id params body =>
    refine anyM_ok fun p hp => ?_
    rw [identName?_eq (hc p (by simp [Kind.children, hp]))]
    rfl
  case program body | block body => exact anyM_ok fun s hs => declaresVar_eq h (hc s hs)
  case forLoop init test step body =>
    cases init with
    | none => rfl
    | some s => exact declaresVar_eq h (hc s (by simp [Kind.children]))
  all_goals rfl

theorem declaringScope_eq (h : g.Closed) (hi : i < g.size) :
    declaringScope g i name = .ok (g.declaringScope i name) := by
  unfold declaringScope
  rw [ancestors_eq h hi, ok_bind,
    findM?_ok fun a ha => declares_eq h.toInRange (Graph.ancestors_lt h ha)]
  rfl

end Declarations

/-! ## Tables -/

/-- Bindings in order of first occurrence, and the number of the binding of each occurrence. -/
structure Table where
  bindings : List Binding := []
  numbers : List (Id × Nat) := []

namespace Table

variable (t : Table)

/-- The number of the binding of an occurrence. -/
def number? (i : Id) : Option Nat := t.numbers.lookup i

/-- The binding with a number. -/
def get (n : Nat) : Checked Binding :=
  match t.bindings[n]? with
  | some b => .ok b
  | none => .error (.noBinding n)

/-- Adds an occurrence under a scope and a name. A new binding gets the next number. -/
def insert (i scope : Id) (name : String) : Table where
  bindings := Scopes.insert i scope name t.bindings
  numbers := (i, t.bindings.findIdx fun b => b.scope == scope && b.name == name) :: t.numbers

end Table

section Resolve

variable (g : Graph)

/-- Adds a node to its binding, if it is an identifier that stands for a variable. -/
def addOccurrence (t : Table) (i : Id) : Checked Table := do
  match ← identName? g i with
  | some name =>
    if ← isPropertyName g i then return t
    else return t.insert i (← declaringScope g i name) name
  | none => return t

/-- The bindings of a program. -/
def resolve : Checked Table := do (← live g).foldlM (addOccurrence g) {}

variable (t : Table) (i : Id)

/-- The binding of an identifier. -/
def binding? : Checked (Option Binding) :=
  match t.number? i with
  | some n => some <$> t.get n
  | none => return none

/-- The identifiers that share a binding with `i`. -/
def occurrences : Checked (List Id) := do
  match ← binding? t i with
  | some b => return b.occurrences
  | none => return [i]

end Resolve

/-- Every number is that of a binding that has the occurrence, and every occurrence has a number. -/
structure Placed (t : Table) : Prop where
  get : ∀ i n, t.number? i = some n → ∃ b, t.bindings[n]? = some b ∧ i ∈ b.occurrences
  number : ∀ b ∈ t.bindings, ∀ i ∈ b.occurrences, t.number? i ≠ none

/-- A table has the bindings of `s`, and every number is that of the binding that its occurrence
belongs to. -/
structure Numbered (t : Table) (s : Scopes) : Prop where
  none : ∀ {i}, t.number? i = none → s.bindingOf? i = none
  some : ∀ {i n}, t.number? i = some n → ∃ b, t.bindings[n]? = some b ∧ s.bindingOf? i = some b

namespace Placed

variable {t : Table} {i scope : Id} {name : String}

/-- The bindings of a table stay at their numbers when an occurrence is added. -/
theorem getElem?_insert {bs : List Binding} {n : Nat} {b : Binding} (hb : bs[n]? = some b) :
    ∃ b', (Scopes.insert i scope name bs)[n]? = some b' ∧ b.occurrences ⊆ b'.occurrences := by
  induction bs generalizing n with
  | nil => cases hb
  | cons a bs ih =>
    unfold Scopes.insert
    split_ifs
    · cases n with
      | zero =>
        cases hb
        exact ⟨_, rfl, List.subset_append_left _ _⟩
      | succ n => exact ⟨b, hb, List.Subset.refl _⟩
    · cases n with
      | zero => exact ⟨b, hb, List.Subset.refl _⟩
      | succ n => exact ih hb

theorem getElem?_insert_findIdx (bs : List Binding) : ∃ b,
    (Scopes.insert i scope name bs)[bs.findIdx fun b => b.scope == scope && b.name == name]? =
      some b ∧ i ∈ b.occurrences := by
  induction bs with
  | nil => exact ⟨_, rfl, List.mem_singleton_self i⟩
  | cons a bs ih =>
    unfold Scopes.insert
    rw [List.findIdx_cons]
    by_cases ha : a.scope = scope ∧ a.name = name
    · rw [if_pos ha]
      have htest : (a.scope == scope && a.name == name) = true := by simpa using ha
      rw [htest]
      exact ⟨_, rfl, List.mem_append_right _ (List.mem_singleton_self i)⟩
    · rw [if_neg ha]
      have htest : (a.scope == scope && a.name == name) = false := by
        rw [Bool.eq_false_iff]
        simpa using ha
      rw [htest]
      exact ih

theorem mem_insert {bs : List Binding} {b : Binding} {j : Id}
    (hb : b ∈ Scopes.insert i scope name bs) (hj : j ∈ b.occurrences) :
    j = i ∨ ∃ b' ∈ bs, j ∈ b'.occurrences := by
  induction bs with
  | nil =>
    rw [Scopes.insert, List.mem_singleton] at hb
    subst hb
    exact .inl (List.mem_singleton.mp hj)
  | cons a bs ih =>
    unfold Scopes.insert at hb
    split_ifs at hb
    · rcases List.mem_cons.mp hb with rfl | hb
      · rcases List.mem_append.mp hj with hj | hj
        · exact .inr ⟨a, List.mem_cons_self, hj⟩
        · exact .inl (List.mem_singleton.mp hj)
      · exact .inr ⟨b, List.mem_cons_of_mem _ hb, hj⟩
    · rcases List.mem_cons.mp hb with rfl | hb
      · exact .inr ⟨b, List.mem_cons_self, hj⟩
      · rcases ih hb with hj | ⟨b', hb', hj'⟩
        · exact .inl hj
        · exact .inr ⟨b', List.mem_cons_of_mem _ hb', hj'⟩

theorem insert (h : Placed t) : Placed (t.insert i scope name) where
  get j n hn := by
    change ((i, _) :: t.numbers).lookup j = some n at hn
    rw [List.lookup_cons] at hn
    by_cases hji : j = i
    · subst hji
      rw [beq_self_eq_true] at hn
      cases hn
      exact getElem?_insert_findIdx t.bindings
    · rw [beq_false_of_ne hji] at hn
      obtain ⟨b, hb, hj⟩ := h.get j n hn
      obtain ⟨b', hb', hsub⟩ := getElem?_insert hb
      exact ⟨b', hb', hsub hj⟩
  number b hb j hj hn := by
    change ((i, _) :: t.numbers).lookup j = none at hn
    rw [List.lookup_cons] at hn
    by_cases hji : j = i
    · subst hji
      rw [beq_self_eq_true] at hn
      cases hn
    · rw [beq_false_of_ne hji] at hn
      obtain ⟨b', hb', hj'⟩ := (mem_insert hb hj).resolve_left hji
      exact h.number b' hb' j hj' hn

/-- In the table of a program the numbers are those of the bindings that are found by searching. -/
theorem numbered {g : Graph} (h : Placed t) (ht : t.bindings = (Scopes.resolve g).bindings) :
    Numbered t (Scopes.resolve g) where
  none {i} hn := by
    cases hb : (Scopes.resolve g).bindingOf? i with
    | none => rfl
    | some b =>
      obtain ⟨hmem, hi⟩ := Scopes.bindingOf?_eq_some hb
      exact absurd hn (h.number b (ht ▸ hmem) i hi)
  some {i n} hn := by
    obtain ⟨b, hb, hi⟩ := h.get i n hn
    have hmem : b ∈ (Scopes.resolve g).bindings := ht ▸ List.mem_of_getElem? hb
    have hkey := (Scopes.mem_binding_iff hmem).mp hi
    obtain ⟨b', hb', hk⟩ := Scopes.exists_bindingOf? hkey.1 hkey.2
    obtain ⟨hmem', -⟩ := Scopes.bindingOf?_eq_some hb'
    rw [List.inj_on_of_nodup_map (Scopes.nodup_keys g) hmem' hmem hk] at hb'
    exact ⟨b, hb, hb'⟩

end Placed

variable {g : Graph} {i : Id} {t : Table}

theorem addOccurrence_ok (h : g.Closed) (hi : i < g.size) (ht : Placed t) :
    ∃ t', addOccurrence g t i = .ok t' ∧ Placed t' ∧
      t'.bindings = Scopes.add g t.bindings i := by
  unfold addOccurrence Scopes.add
  rw [identName?_eq hi, ok_bind]
  cases g.identName? i with
  | none => exact ⟨t, rfl, ht, rfl⟩
  | some name =>
    dsimp only
    rw [isPropertyName_eq h hi, ok_bind]
    cases g.isPropertyName i with
    | true => exact ⟨t, rfl, ht, rfl⟩
    | false =>
      rw [declaringScope_eq h hi]
      exact ⟨_, rfl, ht.insert, rfl⟩

theorem foldlM_addOccurrence_ok (h : g.Closed) {is : List Id} (his : ∀ i ∈ is, i < g.size)
    (ht : Placed t) : ∃ t', is.foldlM (addOccurrence g) t = .ok t' ∧ Placed t' ∧
      t'.bindings = is.foldl (Scopes.add g) t.bindings := by
  induction is generalizing t with
  | nil => exact ⟨t, rfl, ht, rfl⟩
  | cons i is ih =>
    obtain ⟨t', he, ht', hb⟩ := addOccurrence_ok h (his i List.mem_cons_self) ht
    obtain ⟨t'', he', ht'', hb'⟩ := ih (fun j hj => his j (List.mem_cons_of_mem _ hj)) ht'
    refine ⟨t'', ?_, ht'', ?_⟩
    · rw [List.foldlM_cons, he, ok_bind, he']
    · rw [hb', hb, List.foldl_cons]

/-- **The table of a program is numbered.** -/
theorem resolve_ok (h : g.Closed) :
    ∃ t, resolve g = .ok t ∧ Numbered t (Scopes.resolve g) := by
  have hempty : Placed {} := ⟨fun _ _ hn => (by cases hn), fun _ hb => (by cases hb)⟩
  obtain ⟨t, he, ht, hb⟩ := foldlM_addOccurrence_ok h (fun i hi => h.lt_size hi) hempty
  refine ⟨t, ?_, ht.numbered hb⟩
  unfold resolve
  rw [live_eq h.toInRange, ok_bind, he]

theorem binding?_eq {s : Scopes} (h : Numbered t s) : binding? t i = .ok (s.bindingOf? i) := by
  unfold binding?
  cases hn : t.number? i with
  | none =>
    rw [h.none hn]
    rfl
  | some n =>
    obtain ⟨b, hb, hi⟩ := h.some hn
    rw [hi]
    unfold Table.get
    dsimp only
    rw [hb]
    rfl

theorem occurrences_eq {s : Scopes} (h : Numbered t s) :
    occurrences t i = .ok (s.occurrences i) := by
  unfold occurrences Scopes.occurrences
  rw [binding?_eq h, ok_bind]
  cases s.bindingOf? i <;> rfl

end Checked

end ShaderScript
