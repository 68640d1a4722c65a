import ShaderScript.Proofs.Names.Inputs

/-!
# Different things get different names

A name is only ever given where nothing has it, so identifiers with different names never come to
share one. What an input is declared as does not depend on the inputs before it, and what is left of
the name of a variable does not depend on the variables before it.

* `Naming.losesStem`, **`bareNames_snd`**: the declarations under their final names.
* `Naming.Apart`, **`identName?_bareNames_inj`**: two identifiers have one final name exactly if
  they had one name before.
* `Naming.finalName`, **`identName?_bareNames`**: the final name of an identifier, and
  **`finalName_eq_iff`**: when that of what is no input is the name of one.
* `Naming.eq_of_finalDecl_name`: inputs that are declared under one name.
-/

namespace ShaderScript

open Graph

theorem eq_append_of_after? {lead text rest : String} (h : after? lead text = some rest) :
    text = lead ++ rest := by
  obtain ⟨cs, hcs, rfl⟩ := Option.map_eq_some_iff.mp h
  have hlist : ∀ l t : List Char, l.isPrefixOf? t = some cs → t = l ++ cs := by
    intro l
    induction l with
    | nil => rintro t ⟨⟩; rfl
    | cons c l ih =>
      rintro (_ | ⟨a, t⟩) ht
      · cases ht
      · rw [List.isPrefixOf?] at ht
        split_ifs at ht with hc
        rw [ih t ht, eq_of_beq hc, List.cons_append]
  rw [← String.toList_inj, String.toList_append, String.toList_ofList, hlist _ _ hcs]

/-- No input is called by its bare name in the flat program. -/
theorem Bucket.flatName_ne (b : Bucket) (f : String) : b.flatName f ≠ f := by
  intro he
  have hlength := congrArg String.length he
  rw [flatName, String.length_append] at hlength
  cases b <;> simp [stem, name] at hlength

theorem Graph.mem_identifierNames {g : Graph} {i : Id} (hi : i ∈ g.live)
    (hp : g.isPropertyName i = false) {name : String} (hname : g.identName? i = some name) :
    name ∈ g.identifierNames := by
  refine List.mem_eraseDups.mpr (List.mem_filterMap.mpr ⟨i, List.mem_filter.mpr ⟨hi, ?_⟩, hname⟩)
  rw [hp, Bool.not_false]

namespace Naming

variable {g : Graph} {decls : List FieldDecl} {δ δ' : FieldDecl} {n : Naming} {i j : Id}

/-! ## Declarations -/

/-- Whether the stem of an input comes off. -/
def losesStem (g : Graph) (decls : List FieldDecl) (δ : FieldDecl) : Bool :=
  takesBareField ⟨g, g.identifierNames⟩ decls δ

/-- The declaration of an input under its final name. -/
def finalDecl (g : Graph) (decls : List FieldDecl) (δ : FieldDecl) : FieldDecl :=
  if losesStem g decls δ then { δ with name := δ.field } else δ

/-- What is left of a name when the stems have come off, one input after the other. -/
def stemless (g : Graph) (decls : List FieldDecl) (name : String) : String :=
  decls.foldl (fun name δ => if losesStem g decls δ = true ∧ name = δ.name then δ.field else name)
    name

theorem stemless_of_ne {name : String} (hne : ∀ δ ∈ decls, δ.name ≠ name) :
    stemless g decls name = name :=
  List.foldlRecOn (motive := fun x => x = name) decls _ rfl fun x hx δ hδ => by
    rw [if_neg fun hl => hne δ hδ (hl.2.symm.trans hx), hx]

@[simp] theorem finalDecl_bucket : (finalDecl g decls δ).bucket = δ.bucket := by
  unfold finalDecl
  split_ifs <;> rfl

@[simp] theorem finalDecl_field : (finalDecl g decls δ).field = δ.field := by
  unfold finalDecl
  split_ifs <;> rfl

theorem finalDecl_name : (finalDecl g decls δ).name =
    if losesStem g decls δ = true then δ.field else δ.name := by
  unfold finalDecl
  split_ifs <;> rfl

theorem isFree_iff {name : String} :
    n.isFree name = true ↔ Known.isReserved name = false ∧ name ∉ n.used := by
  simp [isFree]

theorem takesBareField_iff : n.takesBareField decls δ = true ↔ δ.bucket ≠ .varyings ∧
    (decls.filter fun other => other.field == δ.field).length ≤ 1 ∧
      n.isFree δ.field = true := by
  simp [takesBareField, and_assoc]

theorem eq_of_losesStem (hδ : δ ∈ decls) (hδ' : δ' ∈ decls) (hl : losesStem g decls δ = true)
    (hf : δ'.field = δ.field) : δ' = δ := by
  obtain ⟨-, hlen, -⟩ := takesBareField_iff.mp hl
  have hmem : ∀ ε ∈ decls, ε.field = δ.field →
      ε ∈ decls.filter fun other => other.field == δ.field := fun ε hε he =>
    List.mem_filter.mpr ⟨hε, beq_iff_eq.mpr he⟩
  have hsame := hmem δ' hδ' hf
  have hself := hmem δ hδ rfl
  generalize decls.filter (fun other => other.field == δ.field) = l at hlen hsame hself
  match l with
  | [] => cases hself
  | [_] => rw [List.mem_singleton.mp hsame, List.mem_singleton.mp hself]
  | _ :: _ :: _ => simp at hlen

/-- Whether a stem comes off does not depend on the stems before it. -/
theorem takesBareField_eq {before after : List FieldDecl} (hdecls : decls = before ++ δ :: after)
    (hused : n.used = g.identifierNames ++
      (before.filter (losesStem g decls)).map FieldDecl.field) :
    n.takesBareField decls δ = losesStem g decls δ := by
  rw [Bool.eq_iff_iff, losesStem, takesBareField_iff, takesBareField_iff]
  refine and_congr_right fun _ => and_congr_right fun hlen => ?_
  rw [isFree_iff, isFree_iff, hused, List.mem_append, not_or]
  have hnew : δ.field ∉ (before.filter (losesStem g decls)).map FieldDecl.field := by
    intro hmem
    obtain ⟨ε, hε, he⟩ := List.mem_map.mp hmem
    simp only [hdecls, List.filter_append, List.filter_cons, beq_self_eq_true, if_true,
      List.length_append, List.length_cons] at hlen
    have hpos : 0 < (before.filter fun other => other.field == δ.field).length :=
      List.length_pos_of_mem (List.mem_filter.mpr ⟨(List.mem_filter.mp hε).1, beq_iff_eq.mpr he⟩)
    omega
  simp only [hnew, not_false_eq_true, and_true]

/-- What has happened after some of the stems. -/
theorem foldl_bareField {before after : List FieldDecl} (hdecls : decls = before ++ after) :
    let s := before.foldl (bareField decls) (⟨g, g.identifierNames⟩, [])
    s.2 = before.map (finalDecl g decls) ∧
      s.1.used = g.identifierNames ++
        (before.filter (losesStem g decls)).map FieldDecl.field := by
  induction before using List.reverseRecOn generalizing after with
  | nil => exact ⟨rfl, (List.append_nil _).symm⟩
  | append_singleton before δ ih =>
    rw [List.append_assoc, List.singleton_append] at hdecls
    obtain ⟨hlist, hused⟩ := ih hdecls
    simp only [List.foldl_append, List.foldl_cons, List.foldl_nil, List.map_append, List.map_cons,
      List.map_nil, List.filter_append]
    rw [bareField, takesBareField_eq hdecls hused, finalDecl]
    by_cases hl : losesStem g decls δ = true
    · simp [hl, hlist, hused, rename]
    · simp [hl, hlist, hused]

theorem eq_of_finalDecl_name (hdecls : ∀ δ ∈ decls, δ.name = δ.bucket.flatName δ.field)
    (hδ : δ ∈ decls) (hδ' : δ' ∈ decls) (hsame : losesStem g decls δ = losesStem g decls δ')
    (he : (finalDecl g decls δ).name = (finalDecl g decls δ').name) :
    δ.bucket = δ'.bucket ∧ δ.field = δ'.field := by
  rw [finalDecl_name, finalDecl_name, ← hsame] at he
  split_ifs at he with hl
  · rw [eq_of_losesStem hδ hδ' hl he.symm]
    exact ⟨rfl, rfl⟩
  · rw [hdecls δ hδ, hdecls δ' hδ'] at he
    exact Bucket.flatName_inj.mp he

/-! ## Identifiers -/

/-- Every name is in use, and two identifiers have one name exactly if they had one name in the
program. -/
structure Apart (g : Graph) (n : Naming) : Prop extends Underway g n where
  listed : ∀ i ∈ g.live, g.isPropertyName i = false → ∀ name,
    n.graph.identName? i = some name → name ∈ n.used
  same_iff : ∀ i ∈ g.live, ∀ j ∈ g.live, g.isPropertyName i = false → g.isPropertyName j = false →
    (n.graph.identName? i = n.graph.identName? j ↔ g.identName? i = g.identName? j)

namespace Apart

theorem start (g : Graph) : Apart g ⟨g, g.identifierNames⟩ where
  changed := .refl .refl g
  used _ := id
  listed _ hi hp _ hname := mem_identifierNames hi hp hname
  same_iff _ _ _ _ _ _ := Iff.rfl

theorem rename (h : Apart g n) {old new : String} (hnew : new ∉ n.used) :
    Apart g (n.rename old new) where
  toUnderway := h.toUnderway.rename old new
  listed i hi hp name hname := by
    rw [h.identName?_rename hi hp] at hname
    split_ifs at hname with hold
    · rw [← Option.some.inj hname]
      exact List.mem_append_right _ List.mem_cons_self
    · exact List.mem_append_left _ (h.listed i hi hp name hname)
  same_iff i hi j hj hpi hpj := by
    have fresh : ∀ k ∈ g.live, g.isPropertyName k = false → n.graph.identName? k ≠ some new :=
      fun k hk hp hname => hnew (h.listed k hk hp new hname)
    rw [h.identName?_rename hi hpi, h.identName?_rename hj hpj, ← h.same_iff i hi j hj hpi hpj]
    split_ifs with hold hold' hold'
    · rw [hold, hold']
      exact ⟨fun _ => rfl, fun _ => rfl⟩
    · rw [hold]
      exact ⟨fun he => absurd he.symm (fresh j hj hpj), fun he => absurd he.symm hold'⟩
    · rw [hold']
      exact ⟨fun he => absurd he (fresh i hi hpi), fun he => absurd he hold⟩
    · exact Iff.rfl

theorem bareField {s : Naming × List FieldDecl} (h : Apart g s.1) (δ : FieldDecl) :
    Apart g (bareField decls s δ).1 := by
  unfold Naming.bareField
  split_ifs with ht
  · exact h.rename (isFree_iff.mp (takesBareField_iff.mp ht).2.2).2
  · exact h

theorem bareLocal (h : Apart g n) (name : String) : Apart g (n.bareLocal name) := by
  unfold Naming.bareLocal
  split
  · split_ifs with hf
    · exact h.rename (isFree_iff.mp (Bool.and_eq_true_iff.mp hf).2).2
    · exact h
  · exact h

end Apart

/-- The names in use when the stems have come off. -/
def taken (g : Graph) (decls : List FieldDecl) : List String :=
  g.identifierNames ++ (decls.filter (losesStem g decls)).map FieldDecl.field

theorem mem_taken {name : String} : name ∈ taken g decls ↔ name ∈ g.identifierNames ∨
    ∃ δ ∈ decls, losesStem g decls δ = true ∧ δ.field = name := by
  simp [taken, and_assoc]

theorem apart_foldl (g : Graph) (decls before : List FieldDecl) :
    Apart g (before.foldl (bareField decls) (⟨g, g.identifierNames⟩, [])).1 :=
  List.foldlRecOn (motive := fun s : Naming × List FieldDecl => Apart g s.1) before _ (.start g)
    fun _ hs δ _ => hs.bareField δ

/-! ## Variables -/

/-- Nothing keeps a mark from coming off a name. -/
def LosesMark (used : List String) (bare : String) : Prop :=
  bare ≠ "" ∧ Known.isReserved bare = false ∧ bare ∉ used

instance (used : List String) (bare : String) : Decidable (LosesMark used bare) :=
  inferInstanceAs (Decidable (_ ∧ _ ∧ _))

/-- What is left of a name when marks have come off. -/
def unmark (used : List String) (name : String) : String :=
  match after? localMark name with
  | some bare => if LosesMark used bare then bare else name
  | none => name

theorem unmark_of_after? {used : List String} {name : String} (h : after? localMark name = none) :
    unmark used name = name := by
  rw [unmark, h]

theorem unmark_append (used : List String) (bare : String) :
    unmark used (localMark ++ bare) =
      if LosesMark used bare then bare else localMark ++ bare := by
  rw [unmark, after?_append]

/-- The final name of all that has a name. -/
def finalName (g : Graph) (decls : List FieldDecl) (name : String) : String :=
  unmark (taken g decls) (stemless g decls name)

theorem eq_of_unmark_eq {used : List String} {name name' : String} (he : unmark used name = name')
    (hmem : name' ∈ used) : name = name' := by
  unfold unmark at he
  split at he
  · split_ifs at he with hl
    · exact absurd (he ▸ hmem) hl.2.2
    · exact he
  · exact he

theorem bareLocal_of_after? {name : String} (h : after? localMark name = none) :
    n.bareLocal name = n := by
  rw [bareLocal, h]

theorem bareLocal_append (n : Naming) (bare : String) : n.bareLocal (localMark ++ bare) =
    if LosesMark n.used bare then n.rename (localMark ++ bare) bare else n := by
  have htest : (bare != "" && n.isFree bare) = true ↔ LosesMark n.used bare := by
    rw [Bool.and_eq_true, isFree_iff, bne_iff_ne, LosesMark]
  rw [bareLocal, after?_append]
  exact if_congr htest rfl rfl

/-- After the marks of some names. Only what is left of them is new among the names in use. -/
structure Unmarking (g : Graph) (n : Naming) (before : List String) (m : Naming) : Prop
    extends Underway g m where
  mem_used : ∀ x, x ∈ m.used ↔ x ∈ n.used ∨ localMark ++ x ∈ before ∧ LosesMark n.used x
  name : ∀ i ∈ g.live, g.isPropertyName i = false → ∀ name, n.graph.identName? i = some name →
    m.graph.identName? i = some (if name ∈ before then unmark n.used name else name)

theorem Unmarking.bareLocal {before : List String} {m : Naming} (h : Unmarking g n before m)
    {marked : String} (hmem : marked ∈ n.used) :
    Unmarking g n (before ++ [marked]) (m.bareLocal marked) := by
  cases hafter : after? localMark marked with
  | none =>
    rw [bareLocal_of_after? hafter]
    have hne : ∀ x, localMark ++ x ≠ marked := by
      rintro x rfl
      rw [after?_append] at hafter
      cases hafter
    refine { h.toUnderway with mem_used := fun x => ?_, name := fun i hi hp name hname => ?_ }
    · simpa [hne x] using h.mem_used x
    · rw [h.name i hi hp name hname]
      by_cases he : name = marked
      · simp [he, unmark_of_after? hafter]
      · simp [he]
  | some bare =>
    obtain rfl := eq_append_of_after? hafter
    -- the mark comes off now exactly if it would have come off at first and was not met yet
    have hloses : LosesMark m.used bare ↔
        LosesMark n.used bare ∧ localMark ++ bare ∉ before := by
      unfold LosesMark
      rw [h.mem_used bare]
      unfold LosesMark
      tauto
    rw [bareLocal_append]
    split_ifs with hl
    · obtain ⟨hln, hnew⟩ := hloses.mp hl
      refine { h.toUnderway.rename _ _ with
        mem_used := fun x => ?_, name := fun i hi hp name hname => ?_ }
      · change x ∈ m.used ++ [bare] ↔ _
        rw [List.mem_append, h.mem_used x, List.mem_append, List.mem_singleton, List.mem_singleton,
          String.append_right_inj]
        by_cases hx : x = bare
        · simp [hx, hln]
        · simp [hx]
      · rw [h.toUnderway.identName?_rename hi hp, h.name i hi hp name hname]
        by_cases he : name = localMark ++ bare
        · simp [he, hnew, unmark_append, hln]
        · have hcur : (if name ∈ before then unmark n.used name else name) ≠ localMark ++ bare := by
            split_ifs
            · exact fun hu => he (eq_of_unmark_eq hu hmem)
            · exact he
          simp [he, hcur]
    · refine { h.toUnderway with mem_used := fun x => ?_, name := fun i hi hp name hname => ?_ }
      · rw [h.mem_used x, List.mem_append, List.mem_singleton, String.append_right_inj]
        by_cases hx : x = bare
        · subst hx
          tauto
        · simp [hx]
      · rw [h.name i hi hp name hname]
        by_cases he : name = localMark ++ bare
        · subst he
          rw [unmark_append]
          by_cases hln : LosesMark n.used bare
          · have hbefore : localMark ++ bare ∈ before := by tauto
            simp [hbefore]
          · simp [hln]
        · simp [he]

/-- **The name of an identifier when the marks have come off.** -/
theorem identName?_bareLocals_eq (h : Underway g n) (hi : i ∈ g.live)
    (hp : g.isPropertyName i = false) {name : String} (hname : n.graph.identName? i = some name)
    (hused : name ∈ n.used) :
    n.bareLocals.graph.identName? i = some (unmark n.used name) := by
  have hall : ∀ before : List String, (∀ x ∈ before, x ∈ n.used) →
      Unmarking g n before (before.foldl Naming.bareLocal n) := by
    intro before hsub
    induction before using List.reverseRecOn with
    | nil =>
      exact { h with
        mem_used := by simp
        name := fun i _ _ name hname => by simpa using hname }
    | append_singleton before marked ih =>
      rw [List.foldl_append]
      refine (ih fun x hx => hsub x (List.mem_append_left _ hx)).bareLocal ?_
      exact hsub marked (List.mem_append_right _ List.mem_cons_self)
  rw [bareLocals, (hall n.used fun _ => id).name i hi hp name hname, if_pos hused]

end Naming

open Naming

/-- **The declarations under their final names.** -/
theorem bareNames_snd (g : Graph) (decls : List FieldDecl) :
    (bareNames g decls).2 = decls.map (finalDecl g decls) :=
  (foldl_bareField (List.append_nil decls).symm).1

/-- **Two identifiers have one final name exactly if they had one name before.** -/
theorem identName?_bareNames_inj {g : Graph} {decls : List FieldDecl} {i j : Id} (hi : i ∈ g.live)
    (hj : j ∈ g.live) (hpi : g.isPropertyName i = false) (hpj : g.isPropertyName j = false) :
    (bareNames g decls).1.identName? i = (bareNames g decls).1.identName? j ↔
      g.identName? i = g.identName? j := by
  have hlast : Apart g
      (decls.foldl (bareField decls) (⟨g, g.identifierNames⟩, [])).1.bareLocals :=
    List.foldlRecOn (motive := Apart g) _ bareLocal (apart_foldl g decls decls)
      fun n hn name _ => hn.bareLocal name
  exact hlast.same_iff i hi j hj hpi hpj

/-- **The final name of an identifier.** -/
theorem identName?_bareNames {g : Graph} {decls : List FieldDecl} {i : Id} {name : String}
    (hi : i ∈ g.live) (hp : g.isPropertyName i = false) (hname : g.identName? i = some name) :
    (bareNames g decls).1.identName? i = some (finalName g decls name) := by
  have hway := apart_foldl g decls decls
  have hused := (foldl_bareField (g := g) (List.append_nil decls).symm).2
  have hstems : ∀ before after : List FieldDecl, decls = before ++ after →
      (before.foldl (bareField decls) (⟨g, g.identifierNames⟩, [])).1.graph.identName? i =
        some (before.foldl (fun name δ =>
          if losesStem g decls δ = true ∧ name = δ.name then δ.field else name) name) := by
    intro before
    induction before using List.reverseRecOn with
    | nil => exact fun _ _ => hname
    | append_singleton before δ ih =>
      intro after hdecls
      rw [List.append_assoc, List.singleton_append] at hdecls
      have hmid := ih _ hdecls
      simp only [List.foldl_append, List.foldl_cons, List.foldl_nil]
      rw [bareField, takesBareField_eq hdecls (foldl_bareField hdecls).2]
      by_cases hl : losesStem g decls δ = true
      · rw [if_pos hl, (apart_foldl g decls before).identName?_rename hi hp, hmid, apply_ite some]
        simp only [Option.some_inj, hl, true_and]
      · rw [if_neg hl, hmid, if_neg fun hand => hl hand.1]
  have hstays := hstems decls [] (List.append_nil decls).symm
  have hlast := identName?_bareLocals_eq hway.toUnderway hi hp hstays
    (hway.listed i hi hp _ hstays)
  rw [hused] at hlast
  exact hlast

/-- **When what is no input gets the name of one**: it loses a mark in front of the name of an input
that keeps its stem and has no identifiers. -/
theorem finalName_eq_iff {g : Graph} {decls : List FieldDecl} {name : String} {δ : FieldDecl}
    (hlisted : name ∈ g.identifierNames) (hne : ∀ δ ∈ decls, δ.name ≠ name) (hδ : δ ∈ decls)
    (hempty : δ.name ≠ "") (hfree : Known.isReserved δ.name = false) :
    finalName g decls name = (finalDecl g decls δ).name ↔
      losesStem g decls δ = false ∧ δ.name ∉ taken g decls ∧ name = localMark ++ δ.name := by
  have htaken : name ∈ taken g decls := mem_taken.mpr (.inl hlisted)
  rw [finalName, stemless_of_ne hne, finalDecl_name]
  cases hl : losesStem g decls δ with
  | true =>
    -- the bare name is in use, and no identifier had it
    refine ⟨fun he => ?_, fun he => nomatch he.1⟩
    have hfield : name = δ.field := eq_of_unmark_eq he (mem_taken.mpr (.inr ⟨δ, hδ, hl, rfl⟩))
    rw [hfield] at hlisted
    exact absurd hlisted (isFree_iff.mp (takesBareField_iff.mp hl).2.2).2
  | false =>
    rw [if_neg Bool.false_ne_true]
    constructor
    · intro he
      have hnew : δ.name ∉ taken g decls := fun hmem => hne δ hδ (eq_of_unmark_eq he hmem).symm
      refine ⟨rfl, hnew, ?_⟩
      unfold unmark at he
      split at he
      case h_1 bare hafter =>
        split_ifs at he
        · rw [eq_append_of_after? hafter, he]
        · exact absurd (he ▸ htaken) hnew
      case h_2 => exact absurd (he ▸ htaken) hnew
    · rintro ⟨-, hnew, rfl⟩
      rw [unmark_append, if_pos ⟨hempty, hfree, hnew⟩]

end ShaderScript
