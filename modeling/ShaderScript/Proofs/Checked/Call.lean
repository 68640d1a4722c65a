import ShaderScript.Proofs.Call.Table
import ShaderScript.Proofs.Checked.Text

/-!
# Checked lookup of calls

The catalog is kept as a list of entries with an index from names to positions. The index is made
from the list itself, so every position in it is that of an entry. Each entry has as many
parameters as its form writes.

* `Checked.Registry`: the catalog with its index.
* `Checked.Registry.build_eq`: building it finds no entry at fault.
* `Checked.Registry.lookup?_eq`: no lookup in it fails.
* **`Checked.resolveCalls_eq`**: the table of all calls.
-/

namespace ShaderScript.Checked

/-! ## The catalog -/

/-- Whether a form can write a call with a number of arguments. -/
def arityFits : Known.Form → Nat → Bool
  | .binary _, n | .assign, n | .outUnary _, n => n == 2
  | .unary _, n | .argument, n => n == 1
  | .outBinary _, n => n == 3
  | .outRename _, n => n != 0
  | _, _ => true

/-- Stops at an entry that has the wrong number of parameters for its form. -/
def ensureArity (e : Known.Entry) : Checked Unit :=
  if arityFits e.form e.arity then return else throw (.misfit e.name)

theorem arityFits_of_mem {e : Known.Entry} (he : e ∈ Known.catalog) :
    arityFits e.form e.arity = true := by
  have hall : ∀ e ∈ Known.catalog, arityFits e.form e.arity = true := by decide +kernel
  exact hall e he

/-- Entries, and the position of each under its name. -/
structure Registry where
  entries : List Known.Entry
  positions : List (String × Nat)

namespace Registry

/-- The catalog with its index. -/
def ofCatalog : Registry where
  entries := Known.catalog
  positions := Known.catalog.zipIdx.map fun (e, n) => (e.name, n)

/-- Makes the index and looks at every entry. -/
def build : Checked Registry := do
  let _ ← Known.catalog.mapM ensureArity
  return ofCatalog

variable (r : Registry)

/-- The entry at a position. -/
def entry (n : Nat) : Checked Known.Entry :=
  match r.entries[n]? with
  | some e => .ok e
  | none => .error (.noPosition n)

/-- The entry that a call of a name with a number of arguments refers to. -/
def lookup? (name : String) (arguments : Nat) : Checked (Option Known.Entry) := do
  match (r.positions.filter fun p => p.1 == name).map Prod.snd with
  | [] => return none
  | first :: rest =>
    let fitting ← (first :: rest).findM? fun n => do return (← r.entry n).arity == arguments
    return some (← r.entry (fitting.getD first))

theorem build_eq : build = .ok ofCatalog := by
  have hcheck : Known.catalog.mapM ensureArity = .ok (Known.catalog.map fun _ => ()) :=
    mapM_ok fun e he => if_pos (arityFits_of_mem he)
  unfold build
  rw [hcheck]
  rfl

/-- The entry at a position of the catalog, if there is one. -/
def entryAt (n : Nat) : Known.Entry := Known.catalog.getD n default

theorem positions_eq (name : String) : ∃ ns : List Nat,
    (ofCatalog.positions.filter fun p => p.1 == name).map Prod.snd = ns ∧
      (Known.catalog.filter fun e => e.name == name) = ns.map entryAt ∧
      ∀ n ∈ ns, ofCatalog.entry n = .ok (entryAt n) := by
  let named := Known.catalog.zipIdx.filter fun p => p.1.name == name
  have hat : ∀ p ∈ named, Known.catalog[p.2]? = some p.1 :=
    fun p hp => List.mem_zipIdx_iff_getElem?.mp (List.mem_filter.mp hp).1
  refine ⟨named.map Prod.snd, ?_, ?_, fun n hn => ?_⟩
  · unfold ofCatalog
    rw [List.filter_map, List.map_map]
    rfl
  · have hnamed : (Known.catalog.filter fun e => e.name == name) = named.map Prod.fst := by
      conv_lhs => rw [← List.zipIdx_map_fst 0 Known.catalog, List.filter_map]
      rfl
    rw [hnamed, List.map_map]
    refine List.map_congr_left fun p hp => ?_
    rw [Function.comp_apply, entryAt, List.getD_eq_getElem?_getD, hat p hp, Option.getD_some]
  · obtain ⟨p, hp, rfl⟩ := List.mem_map.mp hn
    unfold entry ofCatalog entryAt
    rw [List.getD_eq_getElem?_getD, hat p hp, Option.getD_some]

theorem lookup?_eq (name : String) (arguments : Nat) :
    ofCatalog.lookup? name arguments = .ok (Known.lookup? name arguments) := by
  obtain ⟨ns, hpositions, hentries, hentry⟩ := positions_eq name
  unfold lookup? Known.lookup?
  dsimp only
  rw [hpositions, hentries, List.find?_map, List.head?_map]
  cases ns with
  | nil => rfl
  | cons first rest =>
    have hfind : (first :: rest).findM?
        (fun n => do return (← ofCatalog.entry n).arity == arguments) =
          .ok ((first :: rest).find? ((fun e => e.arity == arguments) ∘ entryAt)) :=
      findM?_ok fun n hn => by
        rw [hentry n hn]
        rfl
    dsimp only
    rw [hfind, ok_bind]
    cases hn : (first :: rest).find? ((fun e => e.arity == arguments) ∘ entryAt) with
    | none =>
      rw [Option.getD_none, hentry first List.mem_cons_self]
      rfl
    | some n =>
      rw [Option.getD_some, hentry n (List.mem_of_find?_eq_some hn)]
      rfl

end Registry

/-! ## Verdicts -/

section Verdicts

variable (g : Graph) (r : Registry)

/-- The top-level function whose name stands at a node. -/
def userFunction? (callee : Id) : Checked (Option Id) := do
  match ← identName? g callee with
  | some name => findFunction? g name
  | none => return none

/-- The verdict on a call. -/
def verdict (callee : Id) (arguments : Nat) : Checked Verdict := do
  match ← userFunction? g callee with
  | some f => return .target (.user f)
  | none =>
    match ← dottedPath? g callee with
    | none => return .unlisted (← render g callee)
    | some path =>
      match ← r.lookup? path arguments with
      | some e => return .target (.known e)
      | none => return .unlisted path

/-- The verdict on a node, if it is a call. -/
def verdict? (i : Id) : Checked (Option Verdict) := do
  match ← kind g i with
  | .call callee args => some <$> verdict g r callee args.length
  | _ => return none

/-- The verdicts on the calls of a program. -/
def verdicts : Checked (List (Id × Verdict)) := do
  filterMap (fun i => do return (← verdict? g r i).map fun v => (i, v)) (← live g).eraseDups

/-- The table of a program. -/
def resolveCalls : Checked CallTable := do
  let found ← verdicts g r
  return {
    targets := found.filterMap fun (i, v) => v.target?.map fun t => (i, t)
    errors := found.filterMap fun (i, v) => v.error?.map fun e => (i, e) }

/-- The notes on calls that are not listed. -/
def callNotes : Checked (List Note) := do
  filterMap (fun i => do return (← verdict? g r i).bind Verdict.note?) (← live g)

variable {g} {i : Id} (h : g.Closed)

include h

theorem userFunction?_eq (hi : i < g.size) : userFunction? g i = .ok (g.userFunction? i) := by
  unfold userFunction? Graph.userFunction?
  rw [identName?_eq hi, ok_bind]
  cases g.identName? i with
  | none => rfl
  | some name => exact findFunction?_eq h.toInRange name

theorem verdict_eq (hi : i < g.size) (arguments : Nat) :
    verdict g .ofCatalog i arguments = .ok (g.verdict i arguments) := by
  unfold verdict Graph.verdict
  rw [userFunction?_eq h hi, ok_bind]
  cases g.userFunction? i with
  | some f => rfl
  | none =>
    dsimp only
    rw [dottedPath?_eq h.toInRange hi, ok_bind]
    cases g.dottedPath? i with
    | none =>
      dsimp only
      rw [render_eq h hi]
      rfl
    | some path =>
      dsimp only
      rw [Registry.lookup?_eq, ok_bind, Option.bind_some]
      cases Known.lookup? path arguments <;> rfl

theorem verdict?_eq (hi : i < g.size) : verdict? g .ofCatalog i = .ok (g.verdict? i) := by
  have hc := h.kind_children_lt i
  unfold verdict? Graph.verdict?
  rw [kind_eq hi, ok_bind]
  generalize g.kind i = k at hc
  cases k
  case call callee args =>
    dsimp only
    rw [verdict_eq h (hc callee List.mem_cons_self)]
    rfl
  all_goals rfl

theorem verdicts_eq : verdicts g .ofCatalog = .ok (CallTable.verdicts g) := by
  unfold verdicts
  rw [live_eq h.toInRange, ok_bind]
  refine filterMap_ok fun i hi => ?_
  rw [verdict?_eq h (h.toInRange.lt_size (List.mem_eraseDups.mp hi))]
  rfl

/-- **No step of filling the table of calls fails.** -/
theorem resolveCalls_eq : resolveCalls g .ofCatalog = .ok (CallTable.resolve g) := by
  unfold resolveCalls
  rw [verdicts_eq h]
  rfl

theorem callNotes_eq : callNotes g .ofCatalog = .ok (CallTable.notes g) := by
  unfold callNotes
  rw [live_eq h.toInRange, ok_bind]
  refine filterMap_ok fun i hi => ?_
  rw [verdict?_eq h (h.toInRange.lt_size hi)]
  rfl

omit h in
theorem user_lt (h : g.InRange) {f : Id} (ht : (CallTable.resolve g).target? i = some (.user f)) :
    f < g.size := by
  obtain ⟨-, _, _, -, hv⟩ := CallTable.target?_call ht
  obtain ⟨-, -, hf, -⟩ := Graph.verdict_user hv
  exact Graph.functions_lt h hf

end Verdicts

end ShaderScript.Checked
