import ShaderScript.Builder
import ShaderScript.Proofs.Names.Distinct
import ShaderScript.Proofs.Scope.Partition

/-!
# Taking marks off captures nothing

Marks come off in two rounds, first those of inputs and then those of variables, and what is left of
a name may look like a marked name again. All the same the final names are as far apart as the names
before, so every identifier stays in its scope, and a name is only ever given that nothing had.

* `Naming.stemless_of_mem`: what the first round leaves of the name of an input.
* `Naming.finalName_cases`: what both rounds leave of a name.
* `Naming.CaptureFree`: what can be said of the final names.
* **`bareNames_captureFree`**: it holds for every program, and for all declarations of inputs that
  the program uses.
-/

namespace ShaderScript

open Graph

namespace Naming

variable {g : Graph} {decls : List FieldDecl} {δ δ' : FieldDecl} {name : String}

/-! ## Names -/

theorem stemless_cases (g : Graph) (decls : List FieldDecl) (name : String) :
    stemless g decls name = name ∨
      ∃ δ ∈ decls, losesStem g decls δ = true ∧ stemless g decls name = δ.field := by
  refine List.foldlRecOn (motive := fun x => x = name ∨
    ∃ δ ∈ decls, losesStem g decls δ = true ∧ x = δ.field) decls _ (.inl rfl) fun x hx δ hδ => ?_
  split_ifs with hl
  · exact .inr ⟨δ, hδ, hl.1, rfl⟩
  · exact hx

/-- The bare name of an input that loses its stem is neither reserved nor in use. -/
theorem free_of_losesStem (hl : losesStem g decls δ = true) :
    Known.isReserved δ.field = false ∧ δ.field ∉ g.identifierNames :=
  isFree_iff.mp (takesBareField_iff.mp hl).2.2

theorem losesStem_congr (hb : δ'.bucket = δ.bucket) (hf : δ'.field = δ.field) :
    losesStem g decls δ' = losesStem g decls δ := by
  unfold losesStem takesBareField
  rw [hb, hf]

/-- What both rounds leave of a name: the name itself, or one that is neither reserved nor in
use. -/
theorem finalName_cases (g : Graph) (decls : List FieldDecl) (name : String) :
    finalName g decls name = name ∨
      Known.isReserved (finalName g decls name) = false ∧
        finalName g decls name ∉ g.identifierNames := by
  have hfirst : stemless g decls name = name ∨
      Known.isReserved (stemless g decls name) = false ∧
        stemless g decls name ∉ g.identifierNames := by
    rcases stemless_cases g decls name with he | ⟨δ, -, hl, he⟩
    · exact .inl he
    · exact .inr (he ▸ free_of_losesStem hl)
  unfold finalName unmark
  split
  case h_2 => exact hfirst
  case h_1 bare _ =>
    split_ifs with hbare
    · exact .inr ⟨hbare.2.1, fun hmem => hbare.2.2 (mem_taken.mpr (.inl hmem))⟩
    · exact hfirst

section Inputs

variable (hdecls : ∀ δ ∈ decls, δ.name = δ.bucket.flatName δ.field)
  (hused : ∀ δ ∈ decls, δ.name ∈ g.identifierNames)

include hdecls

theorem same_input (hδ : δ ∈ decls) (hδ' : δ' ∈ decls) (hname : δ'.name = δ.name) :
    δ'.bucket = δ.bucket ∧ δ'.field = δ.field := by
  rw [hdecls δ hδ, hdecls δ' hδ'] at hname
  exact Bucket.flatName_inj.mp hname

include hused

/-- **What the first round leaves of the name of an input** is the name that it is declared under
afterwards. -/
theorem stemless_of_mem (hδ : δ ∈ decls) :
    stemless g decls δ.name = (finalDecl g decls δ).name := by
  rw [finalDecl_name]
  cases hl : losesStem g decls δ with
  | false =>
    refine List.foldlRecOn (motive := fun x => x = δ.name) decls _ rfl fun x hx δ' hδ' => ?_
    have hstays : ¬ (losesStem g decls δ' = true ∧ x = δ'.name) := by
      rintro ⟨hl', he⟩
      obtain ⟨hb, hf⟩ := same_input hdecls hδ hδ' (he.symm.trans hx)
      rw [losesStem_congr hb hf, hl] at hl'
      cases hl'
    rw [if_neg hstays, hx]
  | true =>
    -- no input is called by the bare name, so it stays once it is there
    have hstays : ∀ δ' ∈ decls, δ.field ≠ δ'.name := fun δ' hδ' he =>
      (free_of_losesStem hl).2 (he ▸ hused δ' hδ')
    unfold stemless
    refine foldl_reaches (P := fun x => x = δ.name ∨ x = δ.field) (Q := fun x => x = δ.field) hδ
      (fun x δ' hδ' hx => ?_) (fun x hx => ?_) (fun x δ' hδ' _ hx => ?_) (.inl rfl)
    · split_ifs with hc
      · rcases hx with hx | hx
        · exact .inr (same_input hdecls hδ hδ' (hc.2.symm.trans hx)).2
        · exact absurd (hx.symm.trans hc.2) (hstays δ' hδ')
      · exact hx
    · split_ifs with hc
      · rfl
      · exact hx.resolve_left fun hx => hc ⟨hl, hx⟩
    · rw [if_neg fun hc => hstays δ' hδ' (hx.symm.trans hc.2), hx]

theorem finalName_of_mem (hδ : δ ∈ decls) (hfield : ∀ bare, δ.field ≠ localMark ++ bare) :
    finalName g decls δ.name = (finalDecl g decls δ).name := by
  rw [finalName, stemless_of_mem hdecls hused hδ]
  refine unmark_of_after? ?_
  rw [finalDecl_name]
  split_ifs
  · cases hafter : after? localMark δ.field with
    | none => rfl
    | some bare => exact absurd (eq_append_of_after? hafter) (hfield bare)
  · rw [hdecls δ hδ, Bucket.after?_localMark_flatName]

end Inputs

/-! ## Identifiers -/

theorem mem_identifierNames_iff :
    name ∈ g.identifierNames ↔ ∃ i ∈ g.identifiers, g.identName? i = some name := by
  unfold identifierNames
  rw [List.mem_eraseDups, List.mem_filterMap]
  constructor
  · rintro ⟨i, hi, hname⟩
    rw [List.mem_filter, Bool.not_eq_true'] at hi
    exact ⟨i, mem_identifiers.mpr ⟨hi.1, hi.2, name, hname⟩, hname⟩
  · rintro ⟨i, hi, hname⟩
    obtain ⟨hl, hp, -⟩ := mem_identifiers.mp hi
    exact ⟨i, List.mem_filter.mpr ⟨hl, Bool.not_eq_true' _ ▸ hp⟩, hname⟩

variable {x : Graph} {n : Naming}

theorem namesOnly_renameEverywhere (h : NamesOnly (· ∈ g.identifiers) g x) (old new : String) :
    NamesOnly (· ∈ g.identifiers) g (x.renameEverywhere old new) := by
  refine List.foldlRecOn (motive := NamesOnly (· ∈ g.identifiers) g) x.live _ h fun y hy i hi => ?_
  split_ifs with hc
  · rw [Bool.and_eq_true, beq_iff_eq, Bool.not_eq_true', hy.changed.isPropertyName_eq] at hc
    have hsome := hy.changed.isSome_identName? i
    rw [hc.1, Option.isSome_some, eq_comm, Option.isSome_iff_exists] at hsome
    exact hy.rename (mem_identifiers.mpr ⟨h.changed.live_eq ▸ hi, hc.2, hsome⟩) new
  · exact hy

theorem namesOnly_bareNames (g : Graph) (decls : List FieldDecl) :
    NamesOnly (· ∈ g.identifiers) g (bareNames g decls).1 := by
  have hfields : NamesOnly (· ∈ g.identifiers) g (decls.foldl (bareField decls)
      ({ graph := g, used := g.identifierNames }, [])).1.graph := by
    refine List.foldlRecOn (motive := fun s : Naming × List FieldDecl =>
      NamesOnly (· ∈ g.identifiers) g s.1.graph) decls _ (.refl _ g) fun s hs δ _ => ?_
    unfold bareField
    split_ifs
    · exact namesOnly_renameEverywhere hs δ.name δ.field
    · exact hs
  unfold bareNames bareLocals
  dsimp only
  refine List.foldlRecOn (motive := fun n : Naming => NamesOnly (· ∈ g.identifiers) g n.graph) _ _
    hfields fun n hn marked _ => ?_
  unfold bareLocal
  split
  case h_2 => exact hn
  case h_1 bare _ =>
    split_ifs
    · exact namesOnly_renameEverywhere hn marked bare
    · exact hn

theorem renamedBy_bareNames (g : Graph) (decls : List FieldDecl) :
    RenamedBy (fun k => finalName g decls k.2) g (bareNames g decls).1 := by
  have hname : ∀ {i k}, i ∈ g.live → g.key? i = some k →
      (bareNames g decls).1.identName? i = some (finalName g decls k.2) := fun hi hk =>
    identName?_bareNames hi (key?_eq_some.mp hk).1 (key?_eq_some.mp hk).2.1
  refine ⟨(namesOnly_bareNames g decls).changed, hname, fun {i j k l} hi hj hk hl he => ?_⟩
  obtain ⟨hpi, hni, -⟩ := key?_eq_some.mp hk
  obtain ⟨hpj, hnj, -⟩ := key?_eq_some.mp hl
  have hfinal : (bareNames g decls).1.identName? i = (bareNames g decls).1.identName? j := by
    rw [hname hi hk, hname hj hl, he]
  have hsame := (identName?_bareNames_inj hi hj hpi hpj).mp hfinal
  rw [hni, hnj] at hsame
  exact Option.some.inj hsame

/-! ## All of it -/

/-- The program and the declarations after marks have come off, beside those before. -/
structure CaptureFree (g : Graph) (decls : List FieldDecl) (r : Graph × List FieldDecl) :
    Prop where
  /-- Nothing changes but names of identifiers that stand for variables. -/
  namesOnly : NamesOnly (· ∈ g.identifiers) g r.1
  /-- Two identifiers have one name exactly if they had one name before. -/
  same_iff : ∀ i ∈ g.identifiers, ∀ j ∈ g.identifiers,
    r.1.identName? i = r.1.identName? j ↔ g.identName? i = g.identName? j
  /-- Every scope has the identifiers that it had. -/
  parts : (Scopes.resolve r.1).parts = (Scopes.resolve g).parts
  /-- What is no input and has no mark keeps its name. -/
  kept : ∀ i ∈ g.identifiers, ∀ name, g.identName? i = some name → (∀ δ ∈ decls, δ.name ≠ name) →
    (∀ bare, name ≠ localMark ++ bare) → r.1.identName? i = some name
  /-- A new name is not reserved, and no identifier had it. -/
  fresh : ∀ i ∈ g.identifiers, ∀ name, r.1.identName? i = some name → g.identName? i ≠ some name →
    Known.isReserved name = false ∧ name ∉ g.identifierNames
  /-- The declarations stay in order. A varying keeps its name, and any other input may get its bare
  name if that is free. The identifiers of an input whose field does not look marked are those that
  have the name of its declaration. -/
  declared : List.Forall₂ (fun δ δ' =>
    (δ' = δ ∨ δ.bucket ≠ .varyings ∧ δ' = { δ with name := δ.field } ∧
      Known.isReserved δ.field = false ∧ δ.field ∉ g.identifierNames) ∧
    ((∀ bare, δ.field ≠ localMark ++ bare) → ∀ i ∈ g.identifiers,
      g.identName? i = some δ.name ↔ r.1.identName? i = some δ'.name)) decls r.2
  /-- A mark stays only where the bare name is empty, reserved, in use, or given to an input. -/
  marked : ∀ i ∈ g.identifiers, ∀ bare, g.identName? i = some (localMark ++ bare) →
    r.1.identName? i = some (localMark ++ bare) →
    bare = "" ∨ Known.isReserved bare = true ∨ bare ∈ g.identifierNames ∨
      bare ∈ r.2.map FieldDecl.name

end Naming

open Naming

/-- **Taking marks off names is a renaming without capture**, where every declared input is used. -/
theorem bareNames_captureFree {g : Graph} {decls : List FieldDecl} (h : g.IsTree)
    (hdecls : ∀ δ ∈ decls, δ.name = δ.bucket.flatName δ.field)
    (hused : ∀ δ ∈ decls, ∃ i ∈ g.identifiers, g.identName? i = some δ.name) :
    CaptureFree g decls (bareNames g decls) := by
  have hused' : ∀ δ ∈ decls, δ.name ∈ g.identifierNames := fun δ hδ =>
    mem_identifierNames_iff.mpr (hused δ hδ)
  have hfinal : ∀ {i name}, i ∈ g.identifiers → g.identName? i = some name →
      (bareNames g decls).1.identName? i = some (finalName g decls name) := fun hi hname =>
    identName?_bareNames (mem_identifiers.mp hi).1 (mem_identifiers.mp hi).2.1 hname
  have hsame : ∀ i ∈ g.identifiers, ∀ j ∈ g.identifiers,
      (bareNames g decls).1.identName? i = (bareNames g decls).1.identName? j ↔
        g.identName? i = g.identName? j := fun i hi j hj => by
    obtain ⟨hil, hip, -⟩ := mem_identifiers.mp hi
    obtain ⟨hjl, hjp, -⟩ := mem_identifiers.mp hj
    exact identName?_bareNames_inj hil hjl hip hjp
  refine ⟨namesOnly_bareNames g decls, hsame, (renamedBy_bareNames g decls).parts_resolve h,
    fun i hi name hname hinput hmark => ?_, fun i hi name hname hne => ?_, ?_,
    fun i hi bare hname hkept => ?_⟩
  · rw [hfinal hi hname, finalName, stemless_of_ne hinput, unmark_of_after?]
    cases hafter : after? localMark name with
    | none => rfl
    | some bare => exact absurd (eq_append_of_after? hafter) (hmark bare)
  · obtain ⟨-, -, old, hold⟩ := mem_identifiers.mp hi
    obtain rfl : finalName g decls old = name := Option.some.inj ((hfinal hi hold).symm.trans hname)
    refine (finalName_cases g decls old).resolve_left fun he => hne ?_
    rw [hold, he]
  · rw [bareNames_snd, List.forall₂_map_right_iff, List.forall₂_same]
    intro δ hδ
    refine ⟨?_, fun hfield i hi => ?_⟩
    · unfold finalDecl
      split_ifs with hl
      · exact .inr ⟨(takesBareField_iff.mp hl).1, rfl, free_of_losesStem hl⟩
      · exact .inl rfl
    · obtain ⟨j, hj, hjname⟩ := hused δ hδ
      rw [← finalName_of_mem hdecls hused' hδ hfield, ← hfinal hj hjname, ← hjname]
      exact (hsame i hi j hj).symm
  · have hstem : stemless g decls (localMark ++ bare) = localMark ++ bare := by
      refine stemless_of_ne fun δ hδ he => ?_
      have hafter := after?_append localMark bare
      rw [← he, hdecls δ hδ, Bucket.after?_localMark_flatName] at hafter
      cases hafter
    have hstays := Option.some.inj ((hfinal hi hname).symm.trans hkept)
    rw [finalName, hstem, unmark_append] at hstays
    have hno : ¬ LosesMark (taken g decls) bare := fun hl => by
      rw [if_pos hl] at hstays
      have hlength := congrArg String.length hstays
      rw [String.length_append] at hlength
      simp [localMark] at hlength
    by_contra hnone
    simp only [not_or] at hnone
    obtain ⟨hempty, hres, hfree, hdeclared⟩ := hnone
    refine hno ⟨hempty, Bool.eq_false_iff.mpr hres, fun hmem => ?_⟩
    rcases mem_taken.mp hmem with hmem | ⟨δ, hδ, hl, hfield⟩
    · exact hfree hmem
    · refine hdeclared (List.mem_map.mpr ⟨finalDecl g decls δ, ?_, ?_⟩)
      · rw [bareNames_snd]
        exact List.mem_map_of_mem hδ
      · rw [finalDecl_name, if_pos hl, hfield]

/-- The flat program
`function f(y) { var _local_y = uniforms_z; return attributes__local_x + _local_y; }`. -/
def doublyMarked : Graph := Build.finish do
  let var ← Build.var "_local_y" (some (← Build.ident "uniforms_z"))
  let sum ← Build.binary .add (← Build.ident "attributes__local_x") (← Build.ident "_local_y")
  let _ ← Build.function "f" ["y"] [var, ← Build.ret (some sum)]

/-- Its inputs. -/
def doublyMarkedInputs : List FieldDecl :=
  [⟨.attributes, "_local_x", "attributes__local_x", .float⟩, ⟨.uniforms, "z", "uniforms_z", .float⟩]

/-- An input whose field looks marked loses both marks, and a variable keeps its mark where a
parameter has the bare name. -/
theorem bareNames_captureFree_doublyMarked : doublyMarked.IsTree ∧
    (∀ δ ∈ doublyMarkedInputs, δ.name = δ.bucket.flatName δ.field) ∧
    (∀ δ ∈ doublyMarkedInputs,
      ∃ i ∈ doublyMarked.identifiers, doublyMarked.identName? i = some δ.name) ∧
    CaptureFree doublyMarked doublyMarkedInputs (bareNames doublyMarked doublyMarkedInputs) ∧
    (bareNames doublyMarked doublyMarkedInputs).1.identifierNames =
      ["f", "y", "_local_y", "z", "x"] ∧
    (bareNames doublyMarked doublyMarkedInputs).2.map FieldDecl.name = ["_local_x", "z"] := by
  have h : doublyMarked.IsTree := by decide +kernel
  have hdecls : ∀ δ ∈ doublyMarkedInputs, δ.name = δ.bucket.flatName δ.field := by decide +kernel
  have hused : ∀ δ ∈ doublyMarkedInputs,
      ∃ i ∈ doublyMarked.identifiers, doublyMarked.identName? i = some δ.name := by
    decide +kernel
  exact ⟨h, hdecls, hused, bareNames_captureFree h hdecls hused, by decide +kernel,
    by decide +kernel⟩

end ShaderScript
