import Mathlib.Data.List.Basic
import ShaderScript.Estree.Decode

/-!
# Syntax outside the dialect

Before a document is decoded, it is searched for an object with a type that the dialect does not
have. The search follows items and fields one after the other, and looks at an object before it goes
into its fields. So it finds the object with the smallest path.

* `searched`: the parts of a value that the search goes into.
* `Reaches`: a path leads from a value to a part of it.
* `ForeignAt`, `FirstForeign`: an object of a type outside the dialect, and the first one.
* **`firstForeign_of_eq_some`**, **`not_foreignAt_of_eq_none`**: what the search finds.
-/

namespace ShaderScript

namespace Json

variable {v : Json} {k : String}

theorem depth_le_depthItems {items : List Json} (hv : v ∈ items) : v.depth ≤ depthItems items := by
  induction items with
  | nil => cases hv
  | cons w items ih =>
    rw [depthItems]
    rcases List.mem_cons.mp hv with rfl | hv
    · exact Nat.le_max_left _ _
    · exact Nat.le_trans (ih hv) (Nat.le_max_right _ _)

theorem depth_le_depthFields {fields : List (String × Json)} (hv : (k, v) ∈ fields) :
    v.depth ≤ depthFields fields := by
  induction fields with
  | nil => cases hv
  | cons f fields ih =>
    obtain ⟨k', w⟩ := f
    rw [depthFields]
    rcases List.mem_cons.mp hv with he | hv
    · cases he
      exact Nat.le_max_left _ _
    · exact Nat.le_trans (ih hv) (Nat.le_max_right _ _)

end Json

namespace Estree

variable {u v w : Json} {t t' : String} {path path' : List Nat} {n : Nat}

/-! ## Paths -/

/-- The parts of a value in which nodes are looked for, each in its place. -/
def searched : Json → List (Option Json)
  | .arr items => items.map some
  | .obj fields => fields.map fun f => if isSkipped f.1 then none else some f.2
  | _ => []

/-- The path leads from one value to another, by the places of parts. -/
inductive Reaches : Json → List Nat → Json → Prop
  | here (v : Json) : Reaches v [] v
  | inside {v u w : Json} {n : Nat} {path : List Nat} (hu : (searched v)[n]? = some (some u))
      (hw : Reaches u path w) : Reaches v (n :: path) w

theorem Reaches.trans (h : Reaches v path u) (h' : Reaches u path' w) :
    Reaches v (path ++ path') w := by
  induction h with
  | here => exact h'
  | inside hu _ ih => exact .inside hu (ih h')

theorem depth_lt_of_searched (hu : some u ∈ searched v) : u.depth < v.depth := by
  cases v with
  | arr items =>
    obtain ⟨w, hw, he⟩ := List.mem_map.mp hu
    cases he
    rw [Json.depth]
    exact Nat.lt_succ_of_le (Json.depth_le_depthItems hw)
  | obj fields =>
    obtain ⟨⟨k, w⟩, hw, he⟩ := List.mem_map.mp hu
    split_ifs at he
    cases he
    rw [Json.depth]
    exact Nat.lt_succ_of_le (Json.depth_le_depthFields hw)
  | _ => cases hu

theorem Reaches.depth_le (h : Reaches v path w) : w.depth ≤ v.depth := by
  induction h with
  | here => exact Nat.le_refl _
  | inside hu _ ih =>
    exact Nat.le_trans ih (Nat.le_of_lt (depth_lt_of_searched (List.mem_of_getElem? hu)))

theorem Reaches.depth_lt (h : Reaches v (n :: path) w) : w.depth < v.depth := by
  cases h with
  | inside hu hw =>
    exact Nat.lt_of_le_of_lt hw.depth_le (depth_lt_of_searched (List.mem_of_getElem? hu))

/-! ## Types -/

/-- The type that an object states as a text. -/
def statedType? : Json → Option String
  | .obj fields => (fields.lookup "type").bind Json.text?
  | _ => none

/-- The path leads to an object that states a type which the dialect does not have. -/
def ForeignAt (v : Json) (path : List Nat) (t : String) : Prop :=
  ∃ w, Reaches v path w ∧ statedType? w = some t ∧ NodeType.ofName? t = none

/-- The object is the first one: all others lie inside it or have a later place. -/
structure FirstForeign (v : Json) (path : List Nat) (t : String) : Prop where
  foreign : ForeignAt v path t
  first : ∀ path' t', ForeignAt v path' t' → path' = path ∨ List.Lex (· < ·) path path'

/-- The type of the object itself, if the dialect does not have it. -/
def foreignType? (v : Json) : Option String :=
  (statedType? v).filter fun t => (NodeType.ofName? t).isNone

theorem foreignType?_eq_some :
    foreignType? v = some t ↔ statedType? v = some t ∧ NodeType.ofName? t = none := by
  simp [foreignType?, Option.filter_eq_some_iff]

theorem foreignAt_nil : ForeignAt v [] t ↔ foreignType? v = some t := by
  rw [foreignType?_eq_some]
  constructor
  · rintro ⟨w, ⟨⟩, h⟩
    exact h
  · exact fun h => ⟨v, .here v, h⟩

theorem foreignAt_cons : ForeignAt v (n :: path) t ↔
    ∃ u, (searched v)[n]? = some (some u) ∧ ForeignAt u path t := by
  constructor
  · rintro ⟨w, _ | ⟨hu, hw⟩, h⟩
    exact ⟨_, hu, w, hw, h⟩
  · rintro ⟨u, hu, w, hw, h⟩
    exact ⟨w, .inside hu hw, h⟩

/-! ## The search -/

theorem firstInItems?_eq (items : List Json) :
    firstInItems? items = items.findSome? firstUnsupported? := by
  induction items with
  | nil => rfl
  | cons v items ih =>
    rw [firstInItems?, ih, List.findSome?_cons]
    cases firstUnsupported? v <;> rfl

theorem firstInFields?_eq (fields : List (String × Json)) : firstInFields? fields =
    fields.findSome? fun f => if isSkipped f.1 then none else firstUnsupported? f.2 := by
  induction fields with
  | nil => rfl
  | cons f fields ih =>
    obtain ⟨k, v⟩ := f
    rw [firstInFields?, ih, List.findSome?_cons]
    cases isSkipped k <;> cases firstUnsupported? v <;> rfl

theorem firstUnsupported?_eq (v : Json) : firstUnsupported? v =
    (foreignType? v).or ((searched v).findSome? fun part => part.bind firstUnsupported?) := by
  cases v with
  | arr items =>
    rw [firstUnsupported?, firstInItems?_eq, searched, List.findSome?_map]
    rfl
  | obj fields =>
    have hparts : firstInFields? fields =
        (searched (.obj fields)).findSome? fun part => part.bind firstUnsupported? := by
      rw [firstInFields?_eq, searched, List.findSome?_map]
      refine congrArg (fun f => fields.findSome? f) (funext fun f => ?_)
      dsimp only [Function.comp]
      split_ifs <;> rfl
    rw [firstUnsupported?, hparts, foreignType?, statedType?]
    cases (fields.lookup "type").bind Json.text? with
    | none => rfl
    | some t => cases h : NodeType.ofName? t <;> simp [h, Option.filter]
  | _ => rfl

/-- What the search finds in a value, and what it means that it finds nothing. -/
theorem firstUnsupported?_cases (v : Json) :
    match firstUnsupported? v with
    | some t => ∃ path, FirstForeign v path t
    | none => ∀ path t, ¬ ForeignAt v path t := by
  induction hd : v.depth using Nat.strongRecOn generalizing v with
  | _ d ih =>
    subst hd
    have hinside : ∀ {n : Nat} {u : Json}, (searched v)[n]? = some (some u) →
        u.depth < v.depth := fun hu => depth_lt_of_searched (List.mem_of_getElem? hu)
    rw [firstUnsupported?_eq]
    cases hown : foreignType? v with
    | some t =>
      refine ⟨[], foreignAt_nil.mpr hown, ?_⟩
      rintro (_ | ⟨n, path⟩) - -
      · exact .inl rfl
      · exact .inr .nil
    | none =>
      have hnil : ∀ t, ¬ ForeignAt v [] t := fun t ht => by
        rw [foreignAt_nil, hown] at ht
        cases ht
      rw [Option.none_or]
      cases hfind : (searched v).findSome? fun part => part.bind firstUnsupported? with
      | none =>
        rw [List.findSome?_eq_none_iff] at hfind
        rintro (_ | ⟨n, path⟩) t ht
        · exact hnil t ht
        · obtain ⟨u, hu, ht⟩ := foreignAt_cons.mp ht
          have hnone := hfind _ (List.mem_of_getElem? hu)
          have hu' := ih _ (hinside hu) u rfl
          rw [Option.bind_some] at hnone
          rw [hnone] at hu'
          exact hu' path t ht
      | some t =>
        obtain ⟨before, part, after, hsplit, hpart, hbefore⟩ := List.findSome?_eq_some_iff.mp hfind
        obtain ⟨u, rfl, hut⟩ := Option.bind_eq_some_iff.mp hpart
        have hu : (searched v)[before.length]? = some (some u) := by simp [hsplit]
        have hfirst := ih _ (hinside hu) u rfl
        rw [hut] at hfirst
        obtain ⟨path, hforeign, hfirst⟩ := hfirst
        refine ⟨before.length :: path, foreignAt_cons.mpr ⟨u, hu, hforeign⟩, ?_⟩
        rintro (_ | ⟨n, path'⟩) t' ht'
        · exact absurd ht' (hnil t')
        obtain ⟨u', hu', ht'⟩ := foreignAt_cons.mp ht'
        rcases Nat.lt_trichotomy n before.length with hlt | rfl | hgt
        · -- the parts before were searched without a hit
          have hmem : some u' ∈ before := by
            rw [hsplit, List.getElem?_append_left hlt] at hu'
            exact List.mem_of_getElem? hu'
          have hnone := hbefore _ hmem
          have hcase := ih _ (hinside hu') u' rfl
          rw [Option.bind_some] at hnone
          rw [hnone] at hcase
          exact absurd ht' (hcase path' t')
        · rw [hu] at hu'
          cases hu'
          exact (hfirst path' t' ht').imp (congrArg _) .cons
        · exact .inr (.rel hgt)

/-- **The search finds the first object of a type outside the dialect.** -/
theorem firstForeign_of_eq_some (h : firstUnsupported? v = some t) :
    ∃ path, FirstForeign v path t := by
  have hcases := firstUnsupported?_cases v
  rwa [h] at hcases

/-- **The search overlooks no object** of a type outside the dialect. -/
theorem not_foreignAt_of_eq_none (h : firstUnsupported? v = none) (path : List Nat) (t : String) :
    ¬ ForeignAt v path t := by
  have hcases := firstUnsupported?_cases v
  rw [h] at hcases
  exact hcases path t

end Estree

end ShaderScript
