import ShaderScript.Proofs.Names.Free

/-!
# Inputs are declared under the names that their identifiers have

The stem of an input comes off its declaration and off its identifiers in one go. Other renamings
leave the identifiers alone, as long as the bare name is nothing that one of them takes for a name
of its own: the flat name of an input without identifiers, or the name of a marked variable.

* `Naming.Underway`: a program on the way to its final names.
* `Naming.Settled`: an input is declared under the name that an identifier has.
* `Naming.settled_bareField`, `Naming.Settled.bareField`: one stem comes off.
* **`exists_declared_bareNames`**: when all marks have come off, every input is declared under the
  name that its identifiers have.
-/

namespace ShaderScript

open Graph

namespace Bucket

theorem flatName_inj {b b' : Bucket} {f f' : String} :
    b.flatName f = b'.flatName f' ↔ b = b' ∧ f = f' := by
  refine ⟨fun he => ?_, fun ⟨hb, hf⟩ => hb ▸ hf ▸ rfl⟩
  have hlist := congrArg String.toList he
  unfold flatName at hlist
  rw [String.toList_append, String.toList_append] at hlist
  have hb : b = b' := by
    have hhead : b.stem.toList.head? = b'.stem.toList.head? := by
      have := congrArg List.head? hlist
      cases b <;> cases b' <;> exact this
    revert hhead
    cases b <;> cases b' <;> decide
  subst hb
  exact ⟨rfl, String.toList_injective (List.append_cancel_left hlist)⟩

theorem after?_localMark_flatName (b : Bucket) (f : String) :
    after? localMark (b.flatName f) = none := by
  unfold after? flatName
  rw [String.toList_append]
  cases b <;> rfl

end Bucket

namespace Naming

variable {g : Graph} {decls : List FieldDecl} {s : Naming × List FieldDecl} {i : Id} {b : Bucket}
  {f : String}

/-- The program is on the way to its final names. -/
structure Underway (g : Graph) (n : Naming) : Prop where
  changed : Changed Kind.Renamed g n.graph
  used : ∀ name ∈ g.identifierNames, name ∈ n.used

namespace Underway

variable {n : Naming}

theorem rename (h : Underway g n) (old new : String) : Underway g (n.rename old new) :=
  ⟨h.changed.trans .trans (changed_renameEverywhere _ old new), fun name hname =>
    List.mem_append_left _ (h.used name hname)⟩

theorem bareField (h : Underway g s.1) (δ : FieldDecl) :
    Underway g (bareField decls s δ).1 := by
  unfold Naming.bareField
  split_ifs
  · exact h.rename δ.name δ.field
  · exact h

theorem bareLocal (h : Underway g n) (name : String) : Underway g (n.bareLocal name) := by
  unfold Naming.bareLocal
  split
  · split_ifs
    · exact h.rename name _
    · exact h
  · exact h

theorem notMem_of_isFree (h : Underway g n) {name : String} (hfree : n.isFree name = true) :
    name ∉ g.identifierNames := by
  intro hmem
  unfold isFree at hfree
  rw [List.contains_iff_mem.mpr (h.used name hmem), Bool.not_true, Bool.and_false] at hfree
  cases hfree

theorem identName?_rename (h : Underway g n) (hi : i ∈ g.live) (hp : g.isPropertyName i = false)
    (old new : String) : (n.rename old new).graph.identName? i =
      if n.graph.identName? i = some old then some new else n.graph.identName? i := by
  change (n.graph.renameEverywhere old new).identName? i = _
  rw [identName?_renameEverywhere, h.changed.live_eq, h.changed.isPropertyName_eq]
  simp only [hi, hp, true_and, and_true]

end Underway

/-- Nothing else takes the bare name of an input for its own: it has no mark, and it is not the flat
name of an input without identifiers. -/
def Clear (g : Graph) (decls : List FieldDecl) (f : String) : Prop :=
  after? localMark f = none ∧ ∀ δ ∈ decls, δ.name = f → f ∈ g.identifierNames

/-- The input is declared under the name that the identifier has, which is its flat name or a bare
one that was free; or it is declared under a bare name that something else takes. -/
def Settled (g : Graph) (decls : List FieldDecl) (i : Id) (b : Bucket) (f : String)
    (s : Naming × List FieldDecl) : Prop :=
  ∃ δ ∈ s.2, δ.bucket = b ∧ δ.field = f ∧
    (s.1.graph.identName? i = some δ.name ∧
        (δ.name = b.flatName f ∨ δ.name = f ∧ f ∉ g.identifierNames) ∨
      δ.name = f ∧ ¬ Clear g decls f)

variable (hi : i ∈ g.live) (hp : g.isPropertyName i = false)

include hi hp

/-- **Taking the stem off an input settles it.** -/
theorem settled_bareField (h : Underway g s.1) {δ : FieldDecl}
    (hδ : δ.name = δ.bucket.flatName δ.field) (hname : s.1.graph.identName? i = some δ.name) :
    Settled g decls i δ.bucket δ.field (bareField decls s δ) := by
  unfold bareField
  split_ifs with ht
  · refine ⟨{ δ with name := δ.field }, List.mem_append_right _ List.mem_cons_self, rfl, rfl,
      .inl ⟨?_, .inr ⟨rfl, h.notMem_of_isFree (Bool.and_eq_true_iff.mp ht).2⟩⟩⟩
    rw [h.identName?_rename hi hp, if_pos hname]
  · exact ⟨δ, List.mem_append_right _ List.mem_cons_self, rfl, rfl, .inl ⟨hname, .inl hδ⟩⟩

theorem identName?_bareField_of_ne (h : Underway g s.1) {δ : FieldDecl}
    (hne : s.1.graph.identName? i ≠ some δ.name) :
    (bareField decls s δ).1.graph.identName? i = s.1.graph.identName? i := by
  unfold bareField
  split_ifs
  · rw [h.identName?_rename hi hp, if_neg hne]
  · rfl

omit hi hp in
theorem mem_bareField {δ δ' : FieldDecl} (h : δ' ∈ s.2) : δ' ∈ (bareField decls s δ).2 := by
  unfold bareField
  split_ifs <;> exact List.mem_append_left _ h

variable (hdecls : ∀ δ ∈ decls, δ.name = δ.bucket.flatName δ.field)

omit hi hp in
include hdecls in
theorem eq_of_name_eq_flatName {δ : FieldDecl} (hδ : δ ∈ decls) (hname : δ.name = b.flatName f) :
    δ.bucket = b ∧ δ.field = f :=
  Bucket.flatName_inj.mp ((hdecls δ hδ).symm.trans hname)

include hdecls

theorem Settled.bareField (h : Underway g s.1) (hs : Settled g decls i b f s) {δ : FieldDecl}
    (hδ : δ ∈ decls) : Settled g decls i b f (bareField decls s δ) := by
  obtain ⟨δ', hmem, hb, hf, ⟨hname, hcases⟩ | htaken⟩ := hs
  · by_cases hown : s.1.graph.identName? i = some δ.name
    · have heq : δ.name = δ'.name := Option.some.inj (hown.symm.trans hname)
      rcases hcases with hflat | ⟨hbare, hnew⟩
      · -- the input itself once more
        obtain ⟨rfl, rfl⟩ := eq_of_name_eq_flatName hdecls hδ (heq.trans hflat)
        exact settled_bareField hi hp h (hdecls δ hδ) hown
      · refine ⟨δ', mem_bareField hmem, hb, hf, .inr ⟨hbare, fun hclear => hnew ?_⟩⟩
        exact hclear.2 δ hδ (heq.trans hbare)
    · refine ⟨δ', mem_bareField hmem, hb, hf, .inl ⟨?_, hcases⟩⟩
      rw [identName?_bareField_of_ne hi hp h hown, hname]
  · exact ⟨δ', mem_bareField hmem, hb, hf, .inr htaken⟩

/-- **All inputs are settled** when no stem is left to come off. -/
theorem settled_foldl {δ : FieldDecl} (hδ : δ ∈ decls) (hname : g.identName? i = some δ.name) :
    Settled g decls i δ.bucket δ.field
      (decls.foldl (Naming.bareField decls) (⟨g, g.identifierNames⟩, [])) := by
  refine foldl_reaches (a := δ) (P := fun s : Naming × List FieldDecl => Underway g s.1 ∧
      (s.1.graph.identName? i = some δ.name ∨ Settled g decls i δ.bucket δ.field s)) hδ
    (fun s δ' hδ' ⟨h, hs⟩ => ⟨h.bareField δ', ?_⟩) ?_
    (fun s δ' hδ' h hs => hs.bareField hi hp hdecls h.1 hδ')
    ⟨⟨.refl .refl g, fun _ => id⟩, .inl hname⟩
  · rcases hs with hs | hs
    · by_cases hown : s.1.graph.identName? i = some δ'.name
      · have heq : δ'.name = δ.name := Option.some.inj (hown.symm.trans hs)
        obtain ⟨hb, hf⟩ := eq_of_name_eq_flatName hdecls hδ' (heq.trans (hdecls δ hδ))
        exact .inr (hb ▸ hf ▸ settled_bareField hi hp h (hdecls δ' hδ') hown)
      · exact .inl ((identName?_bareField_of_ne hi hp h hown).trans hs)
    · exact .inr (hs.bareField hi hp hdecls h hδ')
  · rintro s ⟨h, hs | hs⟩
    · exact settled_bareField hi hp h (hdecls δ hδ) hs
    · exact hs.bareField hi hp hdecls h hδ

omit hdecls in
theorem identName?_bareLocals {n : Naming} (h : Underway g n) {name : String}
    (hname : n.graph.identName? i = some name) (hmark : after? localMark name = none) :
    n.bareLocals.graph.identName? i = some name := by
  refine (List.foldlRecOn (motive := fun m => Underway g m ∧ m.graph.identName? i = some name)
    n.used bareLocal ⟨h, hname⟩ fun m hm marked _ => ⟨hm.1.bareLocal marked, ?_⟩).2
  unfold bareLocal
  split
  case h_2 => exact hm.2
  case h_1 bare hafter =>
    split_ifs
    · have hne : m.graph.identName? i ≠ some marked := by
        rw [hm.2]
        rintro ⟨⟩
        rw [hmark] at hafter
        cases hafter
      rw [hm.1.identName?_rename hi hp, if_neg hne, hm.2]
    · exact hm.2

end Naming

open Naming

/-- **Every input is declared under the name that its identifiers have**, if that is its flat name
or nothing else takes its bare name. -/
theorem exists_declared_bareNames {g : Graph} {decls : List FieldDecl} {i : Id} {δ : FieldDecl}
    (hi : i ∈ g.live) (hp : g.isPropertyName i = false)
    (hdecls : ∀ δ ∈ decls, δ.name = δ.bucket.flatName δ.field) (hδ : δ ∈ decls)
    (hname : g.identName? i = some δ.name)
    (hclear : ∀ δ' ∈ (bareNames g decls).2, δ'.bucket = δ.bucket → δ'.field = δ.field →
      δ'.name = δ.field → Clear g decls δ.field) :
    ∃ δ' ∈ (bareNames g decls).2, δ'.bucket = δ.bucket ∧ δ'.field = δ.field ∧
      (bareNames g decls).1.identName? i = some δ'.name := by
  have hway : Underway g (decls.foldl (bareField decls) (⟨g, g.identifierNames⟩, [])).1 :=
    List.foldlRecOn (motive := fun s : Naming × List FieldDecl => Underway g s.1) decls _
      ⟨.refl .refl g, fun _ => id⟩ fun s hs δ _ => hs.bareField δ
  obtain ⟨δ', hδ', hb, hf, ⟨hname', hcases⟩ | ⟨hbare, htaken⟩⟩ :=
    settled_foldl hi hp hdecls hδ hname
  · refine ⟨δ', hδ', hb, hf, identName?_bareLocals hi hp hway hname' ?_⟩
    rcases hcases with he | ⟨he, -⟩
    · rw [he, Bucket.after?_localMark_flatName]
    · rw [he]
      exact (hclear δ' hδ' hb hf he).1
  · exact absurd (hclear δ' hδ' hb hf hbare) htaken

end ShaderScript
