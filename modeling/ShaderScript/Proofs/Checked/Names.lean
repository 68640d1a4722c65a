import ShaderScript.Proofs.Checked.Walk
import ShaderScript.Proofs.Names.Distinct

/-!
# Checked names

A mark comes off a name by cutting the name at an offset. The offset is the length of the mark, and
only names that start with the mark are cut, so it is a boundary between two characters.

* `Checked.sliceFrom`: what follows an offset of a text.
* `Checked.sliceFrom_eq`: a lead can be cut off what starts with it.
* **`Checked.bareNames_ok`**: no step of taking marks off fails.
-/

namespace ShaderScript.Checked

/-! ## Slices -/

/-- The characters after the first `n` bytes, if a character starts or the text ends there. -/
def dropBytes : List Char → Nat → Option (List Char)
  | cs, 0 => some cs
  | [], _ + 1 => none
  | c :: cs, n + 1 => if c.utf8Size ≤ n + 1 then dropBytes cs (n + 1 - c.utf8Size) else none

/-- What follows an offset of a text. -/
def sliceFrom (text : String) (offset : Nat) : Checked String :=
  match dropBytes text.toList offset with
  | some cs => .ok (String.ofList cs)
  | none => .error (.noBoundary offset)

/-- The number of bytes of a list of characters. -/
def bytes : List Char → Nat
  | [] => 0
  | c :: cs => c.utf8Size + bytes cs

theorem dropBytes_append (lead rest : List Char) :
    dropBytes (lead ++ rest) (bytes lead) = some rest := by
  induction lead with
  | nil => cases rest <;> rfl
  | cons c lead ih =>
    rw [List.cons_append, bytes]
    obtain ⟨m, hm⟩ : ∃ m, c.utf8Size = m + 1 := ⟨_, (Nat.succ_pred_eq_of_pos c.utf8Size_pos).symm⟩
    rw [hm, Nat.add_right_comm, dropBytes, hm, if_pos (by omega),
      show m + bytes lead + 1 - (m + 1) = bytes lead by omega]
    exact ih

theorem sliceFrom_eq {name bare : String} (h : after? localMark name = some bare) :
    sliceFrom name localMark.utf8ByteSize = .ok bare := by
  have hsize : localMark.utf8ByteSize = bytes localMark.toList := by decide
  unfold sliceFrom
  rw [eq_append_of_after? h, String.toList_append, hsize, dropBytes_append]
  exact congrArg Except.ok String.ofList_toList

/-! ## Renaming -/

/-- The names of the identifiers that stand for variables. -/
def identifierNames (g : Graph) : Checked (List String) := do
  let named ← filter (fun i => do return !(← isPropertyName g i)) (← live g)
  return (← filterMap (identName? g) named).eraseDups

/-- Renames a node that stands for a variable with a name. -/
def renameIf (old new : String) (g : Graph) (i : Id) : Checked Graph := do
  if (← identName? g i) == some old then
    if ← isPropertyName g i then return g else rename g i new
  else return g

/-- Gives one name to all identifiers with another. -/
def renameEverywhere (g : Graph) (old new : String) : Checked Graph := do
  (← live g).foldlM (renameIf old new) g

section Naming

variable (n : Naming)

/-- Gives a name that is free. -/
def giveName (old new : String) : Checked Naming := do
  return { graph := ← renameEverywhere n.graph old new, used := n.used ++ [new] }

/-- Takes the stem off an input where that is safe. -/
def bareField (decls : List FieldDecl) (s : Naming × List FieldDecl) (d : FieldDecl) :
    Checked (Naming × List FieldDecl) := do
  if s.1.takesBareField decls d then
    return (← giveName s.1 d.name d.field, s.2 ++ [{ d with name := d.field }])
  else return (s.1, s.2 ++ [d])

/-- Takes the mark off a variable where that is safe. -/
def bareLocal (name : String) : Checked Naming := do
  if (after? localMark name).isSome then
    let bare ← sliceFrom name localMark.utf8ByteSize
    if bare != "" && n.isFree bare then giveName n name bare else return n
  else return n

end Naming

/-- Takes the marks off names where that is safe, and returns the declarations under their final
names. -/
def bareNames (g : Graph) (decls : List FieldDecl) : Checked (Graph × List FieldDecl) := do
  let start : Naming := { graph := g, used := ← identifierNames g }
  let (n, decls) ← decls.foldlM (bareField decls) (start, [])
  return ((← n.used.foldlM bareLocal n).graph, decls)

/-! ## No step fails -/

variable {g : Graph} {m : Nat} {n : Naming}

theorem identifierNames_eq (h : g.Closed) : identifierNames g = .ok g.identifierNames := by
  have hnamed : filter (fun i => do return !(← isPropertyName g i)) g.live =
      .ok (g.live.filter fun i => !g.isPropertyName i) :=
    filter_ok fun i hi => by
      rw [isPropertyName_eq h (h.lt_size hi)]
      rfl
  unfold identifierNames
  rw [live_eq h.toInRange, ok_bind, hnamed, ok_bind, filterMap_ok fun i hi =>
    identName?_eq (h.lt_size (List.mem_filter.mp hi).1)]
  rfl

theorem renameEverywhere_ok (h : g.Covers m) (old new : String) :
    renameEverywhere g old new = .ok (g.renameEverywhere old new) ∧
      (g.renameEverywhere old new).Covers m := by
  refine ⟨?_, h.renamed (Graph.changed_renameEverywhere g old new)⟩
  unfold renameEverywhere
  rw [live_eq h.toInRange, ok_bind]
  refine (foldlM_ok (I := fun x : Graph => x.Covers m) h fun x hx i hi => ?_).1
  have hlt := hx.lt_size (h.size_eq ▸ h.toInRange.lt_size hi)
  unfold renameIf
  rw [identName?_eq hlt, ok_bind, isPropertyName_eq hx.toClosed hlt, ok_bind, rename_eq hlt]
  have hrenamed : (x.rename i new).Covers m := hx.renamed (Graph.changed_rename x i new)
  cases x.identName? i == some old <;> cases x.isPropertyName i
  case true.false => exact ⟨rfl, hrenamed⟩
  all_goals exact ⟨rfl, hx⟩

theorem giveName_ok (h : n.graph.Covers m) (old new : String) :
    giveName n old new = .ok (n.rename old new) ∧ (n.rename old new).graph.Covers m := by
  obtain ⟨hrename, hcovers⟩ := renameEverywhere_ok h old new
  refine ⟨?_, hcovers⟩
  unfold giveName
  rw [hrename]
  rfl

theorem bareField_ok (decls : List FieldDecl) {s : Naming × List FieldDecl}
    (h : s.1.graph.Covers m) (d : FieldDecl) :
    bareField decls s d = .ok (Naming.bareField decls s d) ∧
      (Naming.bareField decls s d).1.graph.Covers m := by
  obtain ⟨hrename, hcovers⟩ := giveName_ok h d.name d.field
  unfold bareField Naming.bareField
  split_ifs
  · rw [hrename]
    exact ⟨rfl, hcovers⟩
  · exact ⟨rfl, h⟩

theorem bareLocal_ok (h : n.graph.Covers m) (name : String) :
    bareLocal n name = .ok (n.bareLocal name) ∧ (n.bareLocal name).graph.Covers m := by
  unfold bareLocal Naming.bareLocal
  cases hbare : after? localMark name with
  | none => exact ⟨rfl, h⟩
  | some bare =>
    rw [if_pos (Option.isSome_some), sliceFrom_eq hbare, ok_bind]
    dsimp only
    split_ifs
    · exact giveName_ok h name bare
    · exact ⟨rfl, h⟩

/-- **No step of taking marks off fails**, and it leaves a closed graph with the same nodes. -/
theorem bareNames_ok (h : g.Covers m) (decls : List FieldDecl) :
    bareNames g decls = .ok (ShaderScript.bareNames g decls) ∧
      (ShaderScript.bareNames g decls).1.Covers m := by
  have hstart : ({ graph := g, used := g.identifierNames } : Naming).graph.Covers m := h
  obtain ⟨hfields, cfields⟩ := foldlM_ok (I := fun s : Naming × List FieldDecl => s.1.graph.Covers m)
    (s := (_, [])) hstart fun s hs d (_ : d ∈ decls) => bareField_ok decls hs d
  obtain ⟨hlocals, clocals⟩ := foldlM_ok (I := fun n : Naming => n.graph.Covers m) cfields
    fun n hn name (_ : name ∈ _) => bareLocal_ok hn name
  refine ⟨?_, clocals⟩
  unfold bareNames
  rw [identifierNames_eq h.toClosed, ok_bind]
  dsimp only
  rw [hfields, ok_bind, hlocals]
  rfl

end ShaderScript.Checked
