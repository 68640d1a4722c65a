import ShaderScript.Names
import ShaderScript.Proofs.Scope.Renaming

/-!
# Marks come off

Taking marks off names renames identifiers and does nothing else, and it only ever gives names that
are free.

* `Graph.identName?_renameEverywhere`: what renaming a variable does to an identifier.
* `Naming.Renames`: what taking off one mark or more does to a program.
* `Naming.renames_bareField`, `Naming.renames_bareLocal`: one input and one variable.
* **`renames_bareNames`**: the final names come from flat ones, and none of them is reserved.
-/

namespace ShaderScript

open Graph

theorem after?_append (lead text : String) : after? lead (lead ++ text) = some text := by
  have hprefix : ∀ l t : List Char, l.isPrefixOf? (l ++ t) = some t := by
    intro l t
    induction l with
    | nil => rfl
    | cons a l ih => rw [List.cons_append, List.isPrefixOf?, if_pos (beq_self_eq_true a), ih]
  rw [after?, String.toList_append, hprefix, Option.map_some, String.ofList_toList]

namespace Graph

variable (g : Graph) (old new : String)

theorem changed_renameEverywhere : Changed Kind.Renamed g (g.renameEverywhere old new) := by
  refine .foldl id .refl .trans fun x i _ => ?_
  dsimp only [id]
  split_ifs
  · exact changed_rename x i new
  · exact .refl .refl x

/-- **Renaming gives the new name to the variables that have the old one**, and to nothing else. -/
theorem identName?_renameEverywhere (j : Id) : (g.renameEverywhere old new).identName? j =
    if j ∈ g.live ∧ g.identName? j = some old ∧ g.isPropertyName j = false then some new
    else g.identName? j := by
  unfold renameEverywhere
  generalize g.live = is
  induction is generalizing g with
  | nil => simp
  | cons i is ih =>
    rw [List.foldl_cons]
    by_cases hi : g.identName? i = some old ∧ g.isPropertyName i = false
    · have hstep : (g.identName? i == some old && !g.isPropertyName i) = true := by
        rw [hi.1, hi.2, beq_self_eq_true, Bool.not_false, Bool.and_self]
      rw [if_pos hstep, ih, (changed_rename g i new).isPropertyName_eq, identName?_rename]
      by_cases hij : i = j
      · subst hij
        simp [hi.1, hi.2]
      · simp [hij, Ne.symm hij]
    · have hstep : ¬ (g.identName? i == some old && !g.isPropertyName i) = true := by
        simpa using hi
      rw [if_neg hstep, ih]
      by_cases hij : j = i
      · subst hij
        simp [hi]
      · simp [hij]

end Graph

/-- A name that taking off marks may change: the flat name of an input, or that of a marked
variable. -/
def IsMarked (name : String) : Prop :=
  (∃ (b : Bucket) (f : String), name = b.flatName f) ∨ ∃ bare, after? localMark name = some bare

namespace Naming

/-- Identifiers with marked names have been given names that are not reserved, and nothing else has
happened. -/
structure Renames (g g' : Graph) : Prop where
  changed : Changed Kind.Renamed g g'
  name : ∀ i, g'.identName? i = g.identName? i ∨
    (∃ old, g.identName? i = some old ∧ IsMarked old) ∧
      ∃ new, g'.identName? i = some new ∧ Known.isReserved new = false

namespace Renames

variable {g g' g'' : Graph}

theorem refl (g : Graph) : Renames g g := ⟨.refl .refl g, fun _ => .inl rfl⟩

theorem trans (h : Renames g g') (h' : Renames g' g'') : Renames g g'' := by
  refine ⟨h.changed.trans .trans h'.changed, fun i => ?_⟩
  rcases h'.name i with he' | ⟨⟨mid, hmid, hm⟩, hnew⟩
  · rcases h.name i with he | ⟨hold, hnew⟩
    · exact .inl (he'.trans he)
    · exact .inr ⟨hold, by rwa [he']⟩
  · rcases h.name i with he | ⟨hold, -⟩
    · exact .inr ⟨⟨mid, he ▸ hmid, hm⟩, hnew⟩
    · exact .inr ⟨hold, hnew⟩

/-- A reserved name without mark is given to nothing and taken from nothing. -/
theorem identName?_iff (h : Renames g g') {name : String} (hr : Known.isReserved name = true)
    (hm : ¬ IsMarked name) (i : Id) :
    g'.identName? i = some name ↔ g.identName? i = some name := by
  rcases h.name i with he | ⟨⟨old, hold, hm'⟩, new, hnew, hfree⟩
  · rw [he]
  · refine ⟨fun hi => ?_, fun hi => ?_⟩
    · rw [hnew] at hi
      rw [Option.some.inj hi, hr] at hfree
      cases hfree
    · rw [hold] at hi
      obtain rfl := Option.some.inj hi
      exact absurd hm' hm

end Renames

theorem renames_renameEverywhere (g : Graph) {old new : String} (hold : IsMarked old)
    (hnew : Known.isReserved new = false) : Renames g (g.renameEverywhere old new) := by
  refine ⟨changed_renameEverywhere g old new, fun j => ?_⟩
  rw [identName?_renameEverywhere]
  split_ifs with hj
  · exact .inr ⟨⟨old, hj.2.1, hold⟩, new, rfl, hnew⟩
  · exact .inl rfl

theorem not_reserved_of_isFree {n : Naming} {name : String} (h : n.isFree name = true) :
    Known.isReserved name = false := by
  unfold isFree at h
  exact Bool.not_eq_true' _ ▸ (Bool.and_eq_true_iff.mp h).1

theorem renames_bareField {decls : List FieldDecl} (s : Naming × List FieldDecl) {d : FieldDecl}
    (hd : d.name = d.bucket.flatName d.field) :
    Renames s.1.graph (bareField decls s d).1.graph := by
  unfold bareField
  split_ifs with ht
  · refine renames_renameEverywhere _ (.inl ⟨d.bucket, d.field, hd⟩) ?_
    exact not_reserved_of_isFree (Bool.and_eq_true_iff.mp ht).2
  · exact .refl _

theorem renames_bareLocal (n : Naming) (name : String) :
    Renames n.graph (n.bareLocal name).graph := by
  unfold bareLocal
  split
  case h_2 => exact .refl _
  case h_1 bare hbare =>
    split_ifs with hf
    · refine renames_renameEverywhere _ (.inr ⟨bare, hbare⟩) ?_
      exact not_reserved_of_isFree (Bool.and_eq_true_iff.mp hf).2
    · exact .refl _

end Naming

open Naming

/-- **Final names come from marked ones, and none of them is reserved.** -/
theorem renames_bareNames (g : Graph) {decls : List FieldDecl}
    (hd : ∀ d ∈ decls, d.name = d.bucket.flatName d.field) :
    Renames g (bareNames g decls).1 := by
  have hfields : Renames g (decls.foldl (bareField decls)
      ({ graph := g, used := g.identifierNames }, [])).1.graph :=
    List.foldlRecOn (motive := fun s => Renames g s.1.graph) decls _ (.refl g) fun s hs d hmem =>
      hs.trans (renames_bareField s (hd d hmem))
  unfold bareNames
  dsimp only
  refine List.foldlRecOn (motive := fun n => Renames g n.graph) _ bareLocal hfields
    fun n hn name _ => ?_
  exact hn.trans (renames_bareLocal n name)

theorem BucketFields.declarations_name (fs : BucketFields) (g : Graph) :
    ∀ d ∈ fs.declarations g, d.name = d.bucket.flatName d.field := by
  intro d hd
  obtain ⟨p, -, rfl⟩ := List.mem_map.mp hd
  rfl

end ShaderScript
