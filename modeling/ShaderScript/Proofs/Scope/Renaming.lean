import ShaderScript.Proofs.Graph.Edit
import ShaderScript.Proofs.Scope.Bindings

/-!
# Declarations and renaming

What declares a name, and what stays when identifiers are renamed.

* `Graph.Declares`: a node declares an identifier for what stands below it.
* `Graph.Declares.declaringScope`: a declared identifier belongs to the node that declares it.
* `Graph.IsParam`, `Graph.IsVariable`: the identifiers that a program declares.
* `Kind.Renamed`: the change of a name.
* **`Graph.Changed.declaringScope_eq`**: renaming moves an identifier to no other scope as long as
  no new declaration of its name appears around it.
-/

namespace ShaderScript

namespace Graph

variable {g g' : Graph}

/-! ## The way up -/

theorem climb_of_le {d n : Nat} {i : Id} (h : g.IsTree) (hd : g.Below g.root d i) (hn : d ≤ n) :
    g.climb n (g.parent? i) = g.climb d (g.parent? i) := by
  induction hd generalizing n with
  | refl =>
    rw [h.parent_root]
    cases n <;> rfl
  | @step d j c hj hc ih =>
    obtain ⟨n, rfl⟩ := Nat.exists_eq_add_of_le' (show 1 ≤ n by omega)
    rw [h.parent_child j (h.mem_live_iff.mpr ⟨d, hj⟩) c hc]
    exact congrArg (j :: ·) (ih (Nat.le_of_succ_le_succ hn))

theorem IsTree.ancestors_eq_cons (h : g.IsTree) {i p : Id} (hi : i ∈ g.live)
    (hp : g.parent? i = some p) : g.ancestors i = p :: g.ancestors p := by
  obtain ⟨hpl, hc⟩ := h.parent_live hi hp
  obtain ⟨d, hd⟩ := h.mem_live_iff.mp hpl
  have hlt := h.depth_lt (.step hd hc)
  unfold ancestors
  rw [climb_of_le h (.step hd hc) hlt.le, climb_of_le h hd (h.depth_lt hd).le, hp]
  rfl

/-- A node belongs where the node that holds it belongs, unless that one declares the name. -/
theorem declaringScope_child (h : g.IsTree) {i c : Id} {name : String} (hi : i ∈ g.live)
    (hc : c ∈ g.children i) :
    g.declaringScope c name = if g.declares name i then i else g.declaringScope i name := by
  unfold declaringScope
  rw [h.ancestors_eq_cons (h.child_live hi hc) (h.parent_child i hi c hc), List.find?_cons]
  cases g.declares name i <;> rfl

theorem isPropertyName_iff {i : Id} : g.isPropertyName i = true ↔
    ∃ p o, g.parent? i = some p ∧ g.kind p = .field o i := by
  unfold isPropertyName
  constructor
  · intro hp
    split at hp
    case h_1 o q hk =>
      obtain ⟨p, hparent, hk⟩ := Option.map_eq_some_iff.mp hk
      exact ⟨p, o, hparent, eq_of_beq hp ▸ hk⟩
    case h_2 => cases hp
  · rintro ⟨p, o, hparent, hk⟩
    rw [hparent, Option.map_some, hk]
    exact beq_self_eq_true i

/-! ## What declares a name -/

/-- A node that holds statements holds this one directly. -/
inductive Holds (g : Graph) (a stmt : Id) : Prop
  | program {body : List Id} : g.kind a = .program body → stmt ∈ body → Holds g a stmt
  | block {body : List Id} : g.kind a = .block body → stmt ∈ body → Holds g a stmt
  | loop {test step : Option Id} {body : Id} :
      g.kind a = .forLoop (some stmt) test step body → Holds g a stmt

/-- A node declares an identifier for what stands below it. -/
inductive Declares (g : Graph) (a j : Id) : Prop
  | param {name body : Id} {params : List Id} :
      g.kind a = .function name params body → j ∈ params → Declares g a j
  | var {stmt d : Id} {ds : List Id} {init : Option Id} :
      g.Holds a stmt → g.kind stmt = .varDecl ds → d ∈ ds → g.kind d = .declarator j init →
      Declares g a j

theorem declaresVar_iff {name : String} {stmt : Id} : g.declaresVar name stmt = true ↔
    ∃ ds d j init, g.kind stmt = .varDecl ds ∧ d ∈ ds ∧ g.kind d = .declarator j init ∧
      g.identName? j = some name := by
  unfold declaresVar
  constructor
  · intro hv
    split at hv
    case h_2 => cases hv
    case h_1 ds hk =>
      obtain ⟨d, hd, hname⟩ := List.any_eq_true.mp hv
      split at hname
      case h_2 => cases hname
      case h_1 j init hkd => exact ⟨ds, d, j, init, hk, hd, hkd, eq_of_beq hname⟩
  · rintro ⟨ds, d, j, init, hk, hd, hkd, hname⟩
    rw [hk]
    refine List.any_eq_true.mpr ⟨d, hd, ?_⟩
    rw [hkd]
    exact beq_iff_eq.mpr hname

theorem declares_iff {name : String} {a : Id} : g.declares name a = true ↔
    ∃ j, g.Declares a j ∧ g.identName? j = some name := by
  have holds : ∀ {stmt}, g.Holds a stmt → g.declaresVar name stmt = true →
      ∃ j, g.Declares a j ∧ g.identName? j = some name := by
    intro stmt hstmt hv
    obtain ⟨ds, d, j, init, hk, hd, hkd, hname⟩ := declaresVar_iff.mp hv
    exact ⟨j, .var hstmt hk hd hkd, hname⟩
  constructor
  · intro hd
    unfold declares at hd
    split at hd
    case h_1 hk =>
      obtain ⟨p, hp, hname⟩ := List.any_eq_true.mp hd
      exact ⟨p, .param hk hp, eq_of_beq hname⟩
    case h_2 hk =>
      obtain ⟨stmt, hs, hv⟩ := List.any_eq_true.mp hd
      exact holds (.program hk hs) hv
    case h_3 hk =>
      obtain ⟨stmt, hs, hv⟩ := List.any_eq_true.mp hd
      exact holds (.block hk hs) hv
    case h_4 hk => exact holds (.loop hk) hd
    case h_5 => cases hd
  · rintro ⟨j, hj, hname⟩
    unfold declares
    cases hj with
    | param hk hp =>
      rw [hk]
      exact List.any_eq_true.mpr ⟨j, hp, beq_iff_eq.mpr hname⟩
    | var hstmt hk hd hkd =>
      have hv := declaresVar_iff.mpr ⟨_, _, j, _, hk, hd, hkd, hname⟩
      cases hstmt with
      | program hka hs | block hka hs =>
        rw [hka]
        exact List.any_eq_true.mpr ⟨_, hs, hv⟩
      | loop hka =>
        rw [hka]
        exact hv

theorem Holds.child {a stmt : Id} (hs : g.Holds a stmt) : stmt ∈ g.children a := by
  unfold children
  cases hs with
  | program hk hs | block hk hs =>
    rw [hk]
    exact hs
  | loop hk =>
    rw [hk]
    exact List.mem_append_left _ (Option.mem_toList.mpr rfl)

/-- A parameter of a function of the program. -/
def IsParam (g : Graph) (j : Id) : Prop :=
  ∃ f ∈ g.live, ∃ name params body, g.kind f = .function name params body ∧ j ∈ params

/-- A variable that a declarator of the program names. -/
def IsVariable (g : Graph) (j : Id) : Prop :=
  ∃ d ∈ g.live, ∃ init, g.kind d = .declarator j init

theorem isParam_iff {j : Id} : g.IsParam j ↔ g.live.any (fun f =>
    match g.kind f with
    | .function _ params _ => params.contains j
    | _ => false) = true := by
  rw [List.any_eq_true]
  constructor
  · rintro ⟨f, hf, name, params, body, hk, hp⟩
    refine ⟨f, hf, ?_⟩
    rw [hk]
    exact List.contains_iff_mem.mpr hp
  · rintro ⟨f, hf, hp⟩
    split at hp
    case h_1 name params body hk =>
      exact ⟨f, hf, name, params, body, hk, List.contains_iff_mem.mp hp⟩
    case h_2 => cases hp

theorem isVariable_iff {j : Id} : g.IsVariable j ↔ g.live.any (fun d =>
    match g.kind d with
    | .declarator name _ => name == j
    | _ => false) = true := by
  rw [List.any_eq_true]
  constructor
  · rintro ⟨d, hd, init, hk⟩
    refine ⟨d, hd, ?_⟩
    rw [hk]
    exact beq_self_eq_true j
  · rintro ⟨d, hd, hj⟩
    split at hj
    case h_1 name init hk => exact ⟨d, hd, init, eq_of_beq hj ▸ hk⟩
    case h_2 => cases hj

instance (g : Graph) (j : Id) : Decidable (g.IsParam j) := decidable_of_iff _ isParam_iff.symm

instance (g : Graph) (j : Id) : Decidable (g.IsVariable j) := decidable_of_iff _ isVariable_iff.symm

section Trees

variable (h : g.IsTree)

include h

theorem IsParam.live {j : Id} (hj : g.IsParam j) : j ∈ g.live := by
  obtain ⟨f, hf, name, params, body, hk, hp⟩ := hj
  refine h.child_live hf ?_
  rw [children, hk]
  exact List.mem_cons_of_mem _ (List.mem_append_left _ hp)

theorem IsVariable.live {j : Id} (hj : g.IsVariable j) : j ∈ g.live := by
  obtain ⟨d, hd, init, hk⟩ := hj
  refine h.child_live hd ?_
  rw [children, hk]
  exact List.mem_cons_self

theorem Declares.param_or_variable {a j : Id} (ha : a ∈ g.live) (hj : g.Declares a j) :
    g.IsParam j ∨ g.IsVariable j := by
  cases hj with
  | param hk hp => exact .inl ⟨a, ha, _, _, _, hk, hp⟩
  | @var stmt d ds init hs hk hd hkd =>
    have hstmt := h.child_live ha hs.child
    refine .inr ⟨d, h.child_live hstmt ?_, init, hkd⟩
    rw [children, hk]
    exact hd

theorem isPropertyName_of_declared {j : Id} (hj : g.IsParam j ∨ g.IsVariable j) :
    g.isPropertyName j = false := by
  unfold isPropertyName
  rcases hj with ⟨f, hf, name, params, body, hk, hp⟩ | ⟨d, hd, init, hk⟩
  · have hc : j ∈ g.children f := by
      rw [children, hk]
      exact List.mem_cons_of_mem _ (List.mem_append_left _ hp)
    rw [h.parent_child f hf j hc, Option.map_some, hk]
  · have hc : j ∈ g.children d := by
      rw [children, hk]
      exact List.mem_cons_self
    rw [h.parent_child d hd j hc, Option.map_some, hk]

/-- **A declared identifier belongs to the node that declares it.** -/
theorem Declares.declaringScope {a j : Id} {name : String} (ha : a ∈ g.live)
    (hj : g.Declares a j) (hname : g.identName? j = some name) : g.declaringScope j name = a := by
  have hdecl : g.declares name a = true := declares_iff.mpr ⟨j, hj, hname⟩
  unfold Graph.declaringScope
  cases hj with
  | param hk hp =>
    have hc : j ∈ g.children a := by
      rw [children, hk]
      exact List.mem_cons_of_mem _ (List.mem_append_left _ hp)
    rw [h.ancestors_eq_cons (h.child_live ha hc) (h.parent_child a ha j hc), List.find?_cons, hdecl]
    rfl
  | @var stmt d ds init hs hk hd hkd =>
    have hstmt := h.child_live ha hs.child
    have hcd : d ∈ g.children stmt := by
      rw [children, hk]
      exact hd
    have hdl := h.child_live hstmt hcd
    have hcj : j ∈ g.children d := by
      rw [children, hkd]
      exact List.mem_cons_self
    have hnd : g.declares name d = false := by
      unfold declares
      rw [hkd]
    have hns : g.declares name stmt = false := by
      unfold declares
      rw [hk]
    rw [h.ancestors_eq_cons (h.child_live hdl hcj) (h.parent_child d hdl j hcj), List.find?_cons,
      hnd, h.ancestors_eq_cons hdl (h.parent_child stmt hstmt d hcd), List.find?_cons, hns,
      h.ancestors_eq_cons hstmt (h.parent_child a ha stmt hs.child), List.find?_cons, hdecl]
    rfl

end Trees

end Graph

/-! ## Renaming -/

/-- Whether a node is an identifier. -/
def Kind.isIdent : Kind → Bool
  | .ident _ => true
  | _ => false

/-- The change of a name. -/
inductive Kind.Renamed : Kind → Kind → Prop
  | refl (k : Kind) : Renamed k k
  | ident (old new : String) : Renamed (.ident old) (.ident new)

namespace Kind.Renamed

theorem trans {k k' k'' : Kind} (h : Renamed k k') (h' : Renamed k' k'') : Renamed k k'' := by
  cases h with
  | refl => exact h'
  | ident old new =>
    cases h' with
    | refl => exact .ident old new
    | ident _ new' => exact .ident old new'

theorem children_eq {k k' : Kind} (h : Renamed k k') : k'.children = k.children := by
  cases h <;> rfl

theorem eq_iff {k k' : Kind} (h : Renamed k k') {l : Kind} (hl : l.isIdent = false) :
    k' = l ↔ k = l := by
  cases h with
  | refl => rfl
  | ident old new =>
    constructor
    · rintro rfl
      cases hl
    · rintro rfl
      cases hl

end Kind.Renamed

namespace Graph

variable {g g' : Graph}

theorem Changed.climb_eq {r : Kind → Kind → Prop} (h : Changed r g g') (n : Nat) (p : Option Id) :
    g'.climb n p = g.climb n p := by
  induction n generalizing p with
  | zero => rfl
  | succ n ih =>
    cases p with
    | none => rfl
    | some p =>
      unfold climb
      rw [h.parent, ih]

theorem Changed.ancestors_eq {r : Kind → Kind → Prop} (h : Changed r g g') (i : Id) :
    g'.ancestors i = g.ancestors i := by
  unfold ancestors
  rw [h.size, h.parent, h.climb_eq]

namespace Changed

theorem renamed_of_eq (h : Changed (· = ·) g g') : Changed Kind.Renamed g g' := by
  refine h.mono ?_
  rintro k _ rfl
  exact .refl k

variable (h : Changed Kind.Renamed g g')

include h

theorem children_eq (i : Id) : g'.children i = g.children i := (h.kind i).children_eq

theorem walk_eq (n : Nat) (i : Id) : g'.walk n i = g.walk n i := by
  induction n generalizing i with
  | zero => rfl
  | succ n ih =>
    unfold walk
    rw [h.children_eq, funext ih]

theorem descendants_eq (i : Id) : g'.descendants i = g.descendants i := by
  unfold descendants
  rw [h.size, h.walk_eq]

theorem live_eq : g'.live = g.live := by
  unfold live
  rw [h.root, h.descendants_eq]

theorem isTree_of_renamed (ht : g.IsTree) : g'.IsTree :=
  h.isTree (fun hk => hk.children_eq ▸ List.Sublist.refl _) ht

theorem kind_eq_iff (i : Id) {k : Kind} (hk : k.isIdent = false) : g'.kind i = k ↔ g.kind i = k :=
  (h.kind i).eq_iff hk

theorem isPropertyName_eq (i : Id) : g'.isPropertyName i = g.isPropertyName i := by
  unfold isPropertyName
  rw [h.parent]
  cases g.parent? i with
  | none => rfl
  | some p =>
    have hk := h.kind p
    rw [Option.map_some, Option.map_some]
    generalize g.kind p = k, g'.kind p = k' at hk ⊢
    cases hk <;> rfl

theorem isSome_identName? (i : Id) : (g'.identName? i).isSome = (g.identName? i).isSome := by
  have hk := h.kind i
  unfold identName?
  generalize g.kind i = k, g'.kind i = k' at hk ⊢
  cases hk <;> rfl

theorem holds_iff {a stmt : Id} : g'.Holds a stmt ↔ g.Holds a stmt := by
  constructor
  · intro hs
    cases hs with
    | program hk hs => exact .program ((h.kind_eq_iff a rfl).mp hk) hs
    | block hk hs => exact .block ((h.kind_eq_iff a rfl).mp hk) hs
    | loop hk => exact .loop ((h.kind_eq_iff a rfl).mp hk)
  · intro hs
    cases hs with
    | program hk hs => exact .program ((h.kind_eq_iff a rfl).mpr hk) hs
    | block hk hs => exact .block ((h.kind_eq_iff a rfl).mpr hk) hs
    | loop hk => exact .loop ((h.kind_eq_iff a rfl).mpr hk)

theorem declares_iff {a j : Id} : g'.Declares a j ↔ g.Declares a j := by
  constructor
  · intro hj
    cases hj with
    | param hk hp => exact .param ((h.kind_eq_iff a rfl).mp hk) hp
    | var hs hk hd hkd =>
      exact .var (h.holds_iff.mp hs) ((h.kind_eq_iff _ rfl).mp hk) hd
        ((h.kind_eq_iff _ rfl).mp hkd)
  · intro hj
    cases hj with
    | param hk hp => exact .param ((h.kind_eq_iff a rfl).mpr hk) hp
    | var hs hk hd hkd =>
      exact .var (h.holds_iff.mpr hs) ((h.kind_eq_iff _ rfl).mpr hk) hd
        ((h.kind_eq_iff _ rfl).mpr hkd)

/-- An identifier under a new name stays in its scope if no node around it declares the new name
that did not declare the old one, and the scope declares the new name if it declared the old one. -/
theorem declaringScope_congr {i : Id} {name name' : String}
    (hnew : ∀ a ∈ g.ancestors i, g'.declares name' a = true → g.declares name a = true)
    (hold : g.declares name (g.declaringScope i name) = true →
      g'.declares name' (g.declaringScope i name) = true) :
    g'.declaringScope i name' = g.declaringScope i name := by
  unfold declaringScope at hold ⊢
  rw [h.ancestors_eq, h.root]
  cases hf : (g.ancestors i).find? (g.declares name) with
  | none =>
    have hn : (g.ancestors i).find? (g'.declares name') = none := by
      refine List.find?_eq_none.mpr fun a ha hd => ?_
      exact List.find?_eq_none.mp hf a ha (hnew a ha hd)
    rw [hn]
  | some a =>
    rw [hf] at hold
    obtain ⟨hd, before, after, hsplit, hbefore⟩ := List.find?_eq_some_iff_append.mp hf
    have hs : (g.ancestors i).find? (g'.declares name') = some a := by
      refine List.find?_eq_some_iff_append.mpr ⟨hold hd, before, after, hsplit, fun b hb => ?_⟩
      have hnb := hbefore b hb
      rw [Bool.not_eq_true', Bool.eq_false_iff] at hnb ⊢
      exact fun hdb => hnb (hnew b (hsplit ▸ List.mem_append_left _ hb) hdb)
    rw [hs]

/-- **Renaming moves an identifier to no other scope** if every node that declares the name did so
before, and the node that the identifier belonged to still does. -/
theorem declaringScope_eq {i : Id} {name : String}
    (hnew : ∀ j, g'.identName? j = some name → g.identName? j = some name)
    (hold : g.declares name (g.declaringScope i name) = true →
      g'.declares name (g.declaringScope i name) = true) :
    g'.declaringScope i name = g.declaringScope i name := by
  refine h.declaringScope_congr (fun a _ ha => ?_) hold
  obtain ⟨j, hj, hname⟩ := Graph.declares_iff.mp ha
  exact Graph.declares_iff.mpr ⟨j, h.declares_iff.mp hj, hnew j hname⟩

end Changed

/-! ## What renaming does to names -/

theorem changed_rename (g : Graph) (i : Id) (name : String) :
    Changed Kind.Renamed g (g.rename i name) := by
  unfold rename
  split
  case h_1 old hk => exact .replace .refl (hk ▸ .ident old name)
  case h_2 => exact .refl .refl g

theorem changed_renameAll (g : Graph) (is : List Id) (name : String) :
    Changed Kind.Renamed g (g.renameAll is name) :=
  .foldl id .refl .trans fun x i _ => changed_rename x i name

theorem identName?_rename (g : Graph) (i j : Id) (name : String) :
    (g.rename i name).identName? j =
      if i = j ∧ (g.identName? j).isSome then some name else g.identName? j := by
  by_cases hij : i = j
  · subst hij
    cases hi : g.identName? i with
    | none =>
      have hsame : g.rename i name = g := by
        unfold rename
        split
        case h_1 old hk => rw [identName?_eq_some.mpr hk] at hi; cases hi
        case h_2 => rfl
      rw [hsame, hi]
      simp
    | some old =>
      have hk := identName?_eq_some.mp hi
      have hnew : (g.rename i name).kind i = .ident name := by
        unfold rename
        rw [hk]
        exact kind_replace_self _ _ (lt_size_of_kind (hk ▸ nofun))
      rw [identName?_eq_some.mpr hnew]
      simp
  · rw [if_neg fun hc => hij hc.1]
    unfold rename
    split
    case h_1 =>
      unfold identName?
      rw [kind_replace_of_ne _ _ hij]
    case h_2 => rfl

theorem identName?_renameAll (g : Graph) (is : List Id) (j : Id) (name : String) :
    (g.renameAll is name).identName? j =
      if j ∈ is ∧ (g.identName? j).isSome then some name else g.identName? j := by
  induction is generalizing g with
  | nil => simp [renameAll]
  | cons i is ih =>
    have hcons : g.renameAll (i :: is) name = (g.rename i name).renameAll is name := rfl
    rw [hcons, ih, identName?_rename]
    by_cases hij : i = j
    · subst hij
      cases hi : g.identName? i <;> simp
    · have hne : j ≠ i := Ne.symm hij
      simp [hij, hne]

end Graph

end ShaderScript
