import ShaderScript.Proofs.Checked.Call
import ShaderScript.Proofs.Checked.Scope
import ShaderScript.Proofs.Stage.Closure

/-!
# Checked stages

The walk from the entry points goes to functions and `var` statements that it finds in tables. The
tables hold nodes of the program, so the walk never looks below anything else.

* `Checked.Surroundings`: what the walk looks things up in.
* `Checked.needs_lt`, `Checked.reachable_lt`: what is needed is part of the program.
* `Checked.visit_eq`: no step of the walk fails, to any depth.
* **`Checked.extract_eq`**, `Checked.firstError?_eq`: the items of both stages and their first error.
-/

namespace ShaderScript.Checked

/-- The name that a declarator declares. -/
def declaredName? (g : Graph) (d : Id) : Checked (Option String) := do
  match ← kind g d with
  | .declarator name _ => identName? g name
  | _ => return none

/-- The names that a statement declares, with the statement. -/
def declared (g : Graph) (stmt : Id) : Checked (List (String × Id)) := do
  match ← kind g stmt with
  | .varDecl ds => filterMap (fun d => do return (← declaredName? g d).map fun n => (n, stmt)) ds
  | _ => return []

/-- The top-level `var` statement that declares each name. -/
def globals (g : Graph) : Checked (List (String × Id)) := do
  return (← flatMap (declared g) (← body g)).reverse

/-- What the walk looks things up in. -/
structure Surroundings where
  graph : Graph
  calls : CallTable
  table : Table
  globals : List (String × Id)

namespace Surroundings

/-- The surroundings of a walk through a program. -/
def of (g : Graph) (calls : CallTable) : Checked Surroundings := do
  return { graph := g, calls, table := ← resolve g, globals := ← Checked.globals g }

variable (c : Surroundings)

/-- What a call needs. -/
def callNeed? (i : Id) : Option Item :=
  match c.calls.target? i with
  | some (.user f) => some (.function f)
  | some (.known e) => (e.form.target?.bind Known.snippet?).map .library
  | none => none

/-- The `var` statement that an identifier needs. -/
def globalNeed? (i : Id) : Checked (Option Item) := do
  match ← identName? c.graph i with
  | none => return none
  | some name =>
    if ← isPropertyName c.graph i then return none
    else match ← binding? c.table i with
      | none => return none
      | some b =>
        return if b.scope == c.graph.root then (c.globals.lookup name).map .global else none

/-- What a node needs. -/
def need? (i : Id) : Checked (Option Item) := do
  match ← kind c.graph i with
  | .call .. => return c.callNeed? i
  | _ => c.globalNeed? i

/-- What the nodes below a node need. -/
def needs (i : Id) : Checked (List Item) := do filterMap c.need? (← descendants c.graph i)

/-- Goes on to what is needed, unless it is on its way or there, to a depth. -/
def visit : Nat → Reached → Item → Checked Reached
  | 0, r, _ => return r
  | n + 1, r, .function f => do
    match ← functionName? c.graph f with
    | none => return r
    | some name =>
      if r.names.contains name then return r
      else
        let r ← (← c.needs f).foldlM (visit n) { r with names := name :: r.names }
        return { r with items := r.items ++ [.function f] }
  | n + 1, r, .global stmt => do
    if r.globals.contains stmt then return r
    else
      let r ← (← c.needs stmt).foldlM (visit n) { r with globals := stmt :: r.globals }
      return { r with items := r.items ++ [.global stmt] }
  | _ + 1, r, .library s =>
    if r.names.contains s.name then return r
    else return { r with names := s.name :: r.names, items := r.items ++ [.library s] }

end Surroundings

/-- The items that functions need. -/
def reachable (g : Graph) (roots : List Id) (calls : CallTable) : Checked (List Item) := do
  let c ← Surroundings.of g calls
  return (← (roots.map Item.function).foldlM (c.visit (g.size + 1)) {}).items

/-- The items of both stages of a program. -/
def extract (g : Graph) (e : EntryPoints) (calls : CallTable) : Checked Stages := do
  return { vertex := ← reachable g e.vertexStage calls,
           fragment := ← reachable g e.fragmentStage calls }

/-- The first error held back on a node of an item, with the node. -/
def firstError? (g : Graph) (calls : CallTable) (s : Stages) : Checked (Option (Id × Error)) :=
  s.items.findSomeM? fun item =>
    match item.node? with
    | none => return none
    | some root => do
      return (← descendants g root).findSome? fun i => (calls.error? i).map fun e => (i, e)

/-! ## What is needed is part of the program -/

variable {g : Graph} {item : Item} {i : Id}

/-- The node of an item, if it has one, is a node of the graph. -/
def InGraph (g : Graph) (item : Item) : Prop := ∀ i, item.node? = some i → i < g.size

theorem needs_lt (h : g.InRange) {a : Item} (hn : g.Needs a item) : InGraph g item := by
  intro i hi
  cases hn with
  | call _ _ _ ht =>
    cases hi
    exact user_lt h ht
  | helper => cases hi
  | read _ _ _ _ hlast =>
    cases hi
    obtain ⟨before, after, hbody, -, -⟩ := hlast
    exact Graph.body_lt h (hbody ▸ List.mem_append_right _ List.mem_cons_self)

theorem reachable_lt (h : g.InRange) {roots : List Id} (hroots : ∀ f ∈ roots, f < g.size)
    (hitem : item ∈ ShaderScript.reachable g roots (.resolve g)) : InGraph g item := by
  rcases mem_reachable hitem with ⟨f, hf, rfl⟩ | ⟨a, -, hneeds⟩
  · rintro i ⟨⟩
    exact hroots f hf
  · exact needs_lt h hneeds

/-! ## No step fails -/

theorem declaredName?_eq (h : g.InRange) (hi : i < g.size) :
    declaredName? g i = .ok (g.declaredName? i) := by
  have hc := h.kind_children_lt i
  unfold declaredName? Graph.declaredName?
  rw [kind_eq hi, ok_bind]
  generalize g.kind i = k at hc
  cases k
  case declarator name init => exact identName?_eq (hc name List.mem_cons_self)
  all_goals rfl

theorem declared_eq (h : g.InRange) (hi : i < g.size) : declared g i =
    .ok (match g.kind i with
      | .varDecl ds => ds.filterMap fun d =>
        match g.kind d with
        | .declarator name _ => (g.identName? name).map fun n => (n, i)
        | _ => none
      | _ => []) := by
  have hc := h.kind_children_lt i
  unfold declared
  rw [kind_eq hi, ok_bind]
  generalize g.kind i = k at hc
  cases k
  case varDecl ds =>
    refine filterMap_ok fun d hd => ?_
    rw [declaredName?_eq h (hc d hd), Graph.declaredName?]
    cases g.kind d <;> rfl
  all_goals rfl

theorem globals_eq (h : g.InRange) : globals g = .ok g.globals := by
  unfold globals
  rw [body_eq h, ok_bind, flatMap_ok fun stmt hs => declared_eq h (Graph.body_lt h hs)]
  rfl

section Walk

variable (h : g.Closed)

/-- Two surroundings are those of one program, the first with a table of numbers for bindings. -/
structure Surrounds (c : Surroundings) (m : ShaderScript.Surroundings) : Prop where
  graph : c.graph = m.graph
  calls : c.calls = m.calls
  numbered : Numbered c.table m.scopes
  globals : c.globals = m.globals

include h

theorem of_ok (calls : CallTable) :
    ∃ c, Surroundings.of g calls = .ok c ∧ Surrounds c (.of g calls) := by
  obtain ⟨t, hresolve, ht⟩ := resolve_ok h
  refine ⟨{ graph := g, calls, table := t, globals := g.globals }, ?_, rfl, rfl, ht, rfl⟩
  unfold Surroundings.of
  rw [hresolve, ok_bind, globals_eq h.toInRange]
  rfl

variable {c : Surroundings} {calls : CallTable} (hc : Surrounds c (.of g calls))

include hc

theorem globalNeed?_eq (hi : i < g.size) :
    c.globalNeed? i = .ok ((ShaderScript.Surroundings.of g calls).globalNeed? i) := by
  unfold Surroundings.globalNeed? ShaderScript.Surroundings.globalNeed?
  rw [hc.graph, hc.globals, ShaderScript.Surroundings.of_graph, identName?_eq hi, ok_bind]
  cases g.identName? i with
  | none => rfl
  | some name =>
    dsimp only
    rw [isPropertyName_eq h hi, ok_bind]
    cases g.isPropertyName i with
    | true => rfl
    | false =>
      rw [if_neg Bool.false_ne_true, binding?_eq hc.numbered, ok_bind,
        ShaderScript.Surroundings.of_scopes]
      cases (Scopes.resolve g).bindingOf? i with
      | none => rfl
      | some b =>
        have hfound : (g.globals.lookup name).map Item.global =
            (g.globals.lookup name).bind fun stmt => some (.global stmt) := Option.map_eq_bind
        by_cases hroot : b.scope = g.root
        · simp [hroot, guard, hfound]
        · simp [hroot, guard]

theorem need?_eq (hi : i < g.size) :
    c.need? i = .ok ((ShaderScript.Surroundings.of g calls).need? i) := by
  have hglobal := globalNeed?_eq h hc hi
  have hcall : c.callNeed? i = (ShaderScript.Surroundings.of g calls).callNeed? i := by
    unfold Surroundings.callNeed? ShaderScript.Surroundings.callNeed?
    exact hc.calls ▸ rfl
  unfold Surroundings.need? ShaderScript.Surroundings.need?
  rw [hc.graph, ShaderScript.Surroundings.of_graph, kind_eq hi, ok_bind]
  cases g.kind i
  case call => exact congrArg Except.ok hcall
  all_goals exact hglobal

theorem needs_eq (hi : i < g.size) :
    c.needs i = .ok ((ShaderScript.Surroundings.of g calls).needs i) := by
  unfold Surroundings.needs ShaderScript.Surroundings.needs
  rw [hc.graph, ShaderScript.Surroundings.of_graph, descendants_eq h.toInRange hi, ok_bind]
  exact filterMap_ok fun j hj => need?_eq h hc (Graph.descendants_lt h.toInRange hi hj)

end Walk

section Visit

variable (h : g.Closed) {c : Surroundings} (hc : Surrounds c (.of g (.resolve g)))

include h hc

theorem foldlM_visit_eq {n : Nat} (hvisit : ∀ r item, InGraph g item →
      c.visit n r item = .ok ((ShaderScript.Surroundings.of g (.resolve g)).visit n r item))
    (hi : i < g.size) (r : Reached) :
    (do (← c.needs i).foldlM (c.visit n) r) =
      .ok (((ShaderScript.Surroundings.of g (.resolve g)).needs i).foldl
        ((ShaderScript.Surroundings.of g (.resolve g)).visit n) r) := by
  rw [needs_eq h hc hi, ok_bind]
  refine (foldlM_ok (I := fun _ => True) trivial fun r _ item hitem => ⟨hvisit r item ?_, trivial⟩).1
  have hneeds : item ∈ (ShaderScript.Surroundings.of g (.resolve g)).needsOf (.function i) := hitem
  exact needs_lt h.toInRange (ShaderScript.Surroundings.mem_needsOf_iff.mp hneeds)

theorem visit_eq (n : Nat) (r : Reached) (hitem : InGraph g item) :
    c.visit n r item = .ok ((ShaderScript.Surroundings.of g (.resolve g)).visit n r item) := by
  induction n generalizing r item with
  | zero => rfl
  | succ n ih =>
    have hfold := fun i hi => foldlM_visit_eq h hc (n := n) (fun r item hi => ih r hi) (i := i) hi
    unfold Surroundings.visit ShaderScript.Surroundings.visit
    cases item with
    | function f =>
      dsimp only
      rw [hc.graph, ShaderScript.Surroundings.of_graph,
        functionName?_eq h.toInRange (hitem f rfl), ok_bind]
      cases g.functionName? f with
      | none => rfl
      | some name =>
        dsimp only
        split
        · rfl
        · rw [← bind_assoc, hfold f (hitem f rfl)]
          rfl
    | global stmt =>
      dsimp only
      split
      · rfl
      · rw [← bind_assoc, hfold stmt (hitem stmt rfl)]
        rfl
    | library s =>
      dsimp only
      split <;> rfl

end Visit

variable {roots : List Id}

theorem reachable_eq (h : g.Closed) (hroots : ∀ f ∈ roots, f < g.size) :
    reachable g roots (.resolve g) = .ok (ShaderScript.reachable g roots (.resolve g)) := by
  obtain ⟨c, hof, hc⟩ := of_ok h (.resolve g)
  unfold reachable ShaderScript.reachable
  rw [hof, ok_bind, (foldlM_ok (I := fun _ => True) trivial fun r _ item hitem =>
    ⟨visit_eq h hc (g.size + 1) r ?_, trivial⟩).1]
  · rfl
  · obtain ⟨f, hf, rfl⟩ := List.mem_map.mp hitem
    rintro _ ⟨⟩
    exact hroots f hf

section Stages

variable {e : EntryPoints} (h : g.Closed) (he : ∀ p ∈ e.toList, p.2 < g.size)

include he

theorem vertexStage_lt {f : Id} (hf : f ∈ e.vertexStage) : f < g.size := by
  rcases List.mem_cons.mp hf with rfl | hf
  · exact he (.vertexPosition, _) (by simp [EntryPoints.toList])
  · exact he (.pointSize, f) (by simp [EntryPoints.toList, Option.mem_toList.mp hf])

theorem fragmentStage_lt {f : Id} (hf : f ∈ e.fragmentStage) : f < g.size := by
  obtain rfl := List.mem_singleton.mp hf
  exact he (.fragmentColor, _) (by simp [EntryPoints.toList])

theorem items_lt (h : g.InRange) (hitem : item ∈ (Stages.extract g e (.resolve g)).items) :
    InGraph g item := by
  rcases List.mem_append.mp hitem with hitem | hitem
  · exact reachable_lt h (fun _ hf => vertexStage_lt he hf) hitem
  · exact reachable_lt h (fun _ hf => fragmentStage_lt he hf) hitem

include h

/-- **No step of finding the items of both stages fails.** -/
theorem extract_eq : extract g e (.resolve g) = .ok (Stages.extract g e (.resolve g)) := by
  unfold extract
  rw [reachable_eq h fun _ hf => vertexStage_lt he hf, ok_bind,
    reachable_eq h fun _ hf => fragmentStage_lt he hf]
  rfl

theorem firstError?_eq (calls : CallTable) :
    firstError? g calls (Stages.extract g e (.resolve g)) =
      .ok ((Stages.extract g e (.resolve g)).firstError? g calls) := by
  refine findSomeM?_ok fun item hitem => ?_
  cases hroot : item.node? with
  | none => rfl
  | some root =>
    dsimp only
    rw [descendants_eq h.toInRange (items_lt he h.toInRange hitem root hroot)]
    rfl

end Stages

end ShaderScript.Checked
