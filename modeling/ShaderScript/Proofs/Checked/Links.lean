import ShaderScript.Proofs.Checked.Call
import ShaderScript.Proofs.Checked.Scope
import ShaderScript.Proofs.Infer.Budget

/-!
# Checked links and evidence

What inference rests on is read off the program before inference starts to write types.

* `Checked.Context`: what inference looks things up in.
* `Checked.links_eq`: the pairs of nodes that have to agree.
* **`Checked.evidence_eq`**: what the program itself says about types.
-/

namespace ShaderScript.Checked

open Infer (Evidence)

/-- What inference looks things up in. -/
structure Context where
  graph : Graph
  calls : CallTable
  table : Table
  order : List Id

namespace Context

/-- The context of a program. -/
def of (g : Graph) (calls : CallTable) : Checked Context := do
  return { graph := g, calls, table := ← resolve g, order := ← live g }

variable (c : Context)

/-! ## Links -/

/-- The pairs within the expression that a node forms. -/
def formLinks (i : Id) : Checked (List (Id × Id)) := ask c.graph i fun
  | .call callee _ => [(i, callee)]
  | .binary _ left right | .assign _ left right => [(left, right), (i, left)]
  | .unary _ argument | .update _ _ argument => [(i, argument)]
  | .conditional _ consequent alternate => [(consequent, alternate), (i, consequent)]
  | _ => []

/-- The pairs between a function and a call of it. -/
def callLinks (name : Id) (params : List Id) (occurrence : Id) : Checked (List (Id × Id)) := do
  match ← parent? c.graph occurrence with
  | none => return []
  | some call =>
    match ← kind c.graph call with
    | .call callee args =>
      return if callee = occurrence ∧ args.length = params.length then
        (name, call) :: params.zip args
      else []
    | _ => return []

/-- The pairs between a function and its calls and returns. -/
def functionLinks (f : Id) : Checked (List (Id × Id)) := do
  match ← kind c.graph f with
  | .function name params _ =>
    let called ← flatMap (c.callLinks name params) (← occurrences c.table name)
    let values ← filterMap (returned? c.graph) (← returns c.graph f)
    return called ++ values.map fun value => (name, value)
  | _ => return []

/-- The pair between the function around a return statement and the value it gives. -/
def returnLinks (ret value : Id) : Checked (List (Id × Id)) := do
  match ← enclosingFunction? c.graph ret with
  | none => return []
  | some f =>
    match ← kind c.graph f with
    | .function name _ _ => return [(name, value)]
    | _ => return []

/-- The pairs that a node takes part in through the node that holds it. -/
def parentLinks (i p : Id) : Checked (List (Id × Id)) := do
  match ← kind c.graph p with
  | .declarator name (some init) => return [(name, init)]
  | .call callee _ =>
    if callee = i then return [(i, p)]
    else match c.calls.target? p with
      | some (.user f) => c.functionLinks f
      | _ => return []
  | .function .. => c.functionLinks p
  | .ret (some value) => c.returnLinks p value
  | .conditional test _ _ => if test = i then return [] else c.formLinks p
  | .binary .. | .assign .. | .unary .. | .update .. => c.formLinks p
  | _ => return []

/-- All pairs to look at when a node gets its type. -/
def links (i : Id) : Checked (List (Id × Id)) := do
  let formed ← c.formLinks i
  match ← parent? c.graph i with
  | some p => return formed ++ (← c.parentLinks i p)
  | none => return formed

/-! ## Evidence -/

/-- An array literal is a vector of numbers. -/
def arrayEvidence (i : Id) : Checked (List Evidence) := ask c.graph i fun
  | .array elements =>
    match Ty.vec? elements.length with
    | some t => .hasType i t :: elements.map fun e => .hasType e .float
    | none => [.notAVector i elements.length]
  | _ => []

/-- A call of a known function has the types of its signature. -/
def callEvidence (i : Id) : Checked (List Evidence) := do
  match c.calls.known? i with
  | none => return []
  | some e => ask c.graph i fun
    | .call _ args =>
      .hasType i e.ret ::
        if args.length = e.arity then (args.zip e.params).map fun (a, t) => .hasType a t
        else [.wrongArity e args.length]
    | _ => []

/-- A position is a whole number, and what stands there is a number. -/
def indexEvidence (i : Id) : Checked (List Evidence) := do
  match ← kind c.graph i with
  | .index object property =>
    let position ← literalIndex? c.graph property
    return .hasType property .int :: .hasType i .float ::
      (position.map fun k => .indexedAt object k).toList
  | _ => return []

/-- All evidence of the program. -/
def evidence : Checked (List Evidence) := do
  return (← flatMap c.arrayEvidence c.order) ++ (← flatMap c.callEvidence c.order) ++
    (← flatMap c.indexEvidence c.order)

end Context

/-! ## No step fails -/

/-- Two contexts are those of one program, the first with a table of numbers for bindings. -/
structure Reflects (c : Context) (m : Infer.Context) : Prop where
  graph : c.graph = m.graph
  calls : c.calls = m.calls
  numbered : Numbered c.table m.scopes
  order : c.order = m.order

variable {g : Graph} (h : g.Closed)

include h

theorem contextOf_ok (calls : CallTable) :
    ∃ c, Context.of g calls = .ok c ∧ Reflects c (.of g calls) := by
  obtain ⟨t, hresolve, ht⟩ := resolve_ok h
  refine ⟨{ graph := g, calls, table := t, order := g.live }, ?_, rfl, rfl, ht, rfl⟩
  unfold Context.of
  rw [hresolve, ok_bind, live_eq h.toInRange]
  rfl

variable {c : Context} (hc : Reflects c (.of g (.resolve g))) {i : Id}

include hc

omit h in
theorem formLinks_eq (hi : i < g.size) :
    c.formLinks i = .ok ((Infer.Context.of g (.resolve g)).formLinks i) := by
  unfold Context.formLinks
  rw [hc.graph]
  exact ask_eq hi _

theorem callLinks_eq (hi : i < g.size) (name : Id) (params : List Id) :
    c.callLinks name params i =
      .ok ((Infer.Context.of g (.resolve g)).callLinks name params i) := by
  unfold Context.callLinks Infer.Context.callLinks
  rw [hc.graph, Infer.Context.of_graph, parent?_eq hi, ok_bind]
  cases hp : g.parent? i with
  | none => rfl
  | some call =>
    dsimp only
    rw [kind_eq (h.parent_lt hp), ok_bind]
    cases g.kind call <;> rfl

theorem functionLinks_eq (hi : i < g.size) :
    c.functionLinks i = .ok ((Infer.Context.of g (.resolve g)).functionLinks i) := by
  have hchild := h.kind_children_lt i
  have hvalues : filterMap (returned? g) (g.returns i) =
      .ok ((g.returns i).filterMap g.returned?) :=
    filterMap_ok fun r hr => returned?_eq (Graph.returns_lt h.toInRange hi hr)
  unfold Context.functionLinks Infer.Context.functionLinks
  rw [hc.graph, Infer.Context.of_graph, kind_eq hi, ok_bind]
  generalize g.kind i = k at hchild
  cases k
  case function name params body =>
    have hname := hchild name List.mem_cons_self
    have hcalled : flatMap (c.callLinks name params) ((Scopes.resolve g).occurrences name) =
        .ok _ := flatMap_ok fun o ho =>
      callLinks_eq h hc (Graph.occurrences_lt h.toInRange hname ho) name params
    dsimp only
    rw [occurrences_eq hc.numbered, ok_bind, Infer.Context.of_scopes, hcalled, ok_bind,
      returns_eq h hi, ok_bind, hvalues]
    rfl
  all_goals rfl

theorem returnLinks_eq (hi : i < g.size) (value : Id) :
    c.returnLinks i value = .ok ((Infer.Context.of g (.resolve g)).returnLinks i value) := by
  unfold Context.returnLinks Infer.Context.returnLinks
  rw [hc.graph, Infer.Context.of_graph, enclosingFunction?_eq h hi, ok_bind]
  cases hf : g.enclosingFunction? i with
  | none => rfl
  | some f =>
    dsimp only
    rw [kind_eq (Graph.enclosingFunction?_lt h hf), ok_bind, Option.map_some]
    cases g.kind f <;> rfl

theorem parentLinks_eq {p : Id} (hp : p < g.size) :
    c.parentLinks i p = .ok ((Infer.Context.of g (.resolve g)).parentLinks i p) := by
  have hform := formLinks_eq hc hp
  have hfunction := functionLinks_eq h hc hp
  have hreturn := returnLinks_eq h hc hp
  unfold Context.parentLinks Infer.Context.parentLinks
  rw [hc.graph, Infer.Context.of_graph, kind_eq hp, ok_bind]
  cases g.kind p
  case declarator name init => cases init <;> rfl
  case call callee args =>
    dsimp only
    split_ifs
    · rfl
    · rw [hc.calls, Infer.Context.of_calls]
      cases ht : (CallTable.resolve g).target? p with
      | none => rfl
      | some t =>
        cases t with
        | known e => rfl
        | user f => exact functionLinks_eq h hc (user_lt h.toInRange ht)
  case function => exact hfunction
  case ret argument =>
    cases argument with
    | none => rfl
    | some value => exact hreturn value
  case conditional test consequent alternate =>
    dsimp only
    split_ifs
    · rfl
    · exact hform
  case binary | assign | unary | update => exact hform
  all_goals rfl

theorem links_eq (hi : i < g.size) :
    c.links i = .ok ((Infer.Context.of g (.resolve g)).links i) := by
  unfold Context.links Infer.Context.links
  rw [formLinks_eq hc hi, ok_bind, hc.graph, Infer.Context.of_graph, parent?_eq hi, ok_bind]
  cases hp : g.parent? i with
  | none => exact congrArg Except.ok (List.append_nil _).symm
  | some p =>
    dsimp only
    rw [parentLinks_eq h hc (h.parent_lt hp)]
    rfl

/-- **No step of collecting evidence fails.** -/
theorem evidence_eq : c.evidence = .ok (Infer.Context.of g (.resolve g)).evidence := by
  have hlt : ∀ i ∈ g.live, i < g.size := fun i hi => h.lt_size hi
  have harray : flatMap c.arrayEvidence g.live =
      .ok (g.live.flatMap (Infer.Context.of g (.resolve g)).arrayEvidence) :=
    flatMap_ok fun i hi => by
      unfold Context.arrayEvidence
      rw [hc.graph]
      exact ask_eq (hlt i hi) _
  have hcall : flatMap c.callEvidence g.live =
      .ok (g.live.flatMap (Infer.Context.of g (.resolve g)).callEvidence) := by
    refine flatMap_ok fun i hi => ?_
    unfold Context.callEvidence Infer.Context.callEvidence
    rw [hc.calls, Infer.Context.of_calls, hc.graph, Infer.Context.of_graph]
    cases (CallTable.resolve g).known? i with
    | none => rfl
    | some e =>
      dsimp only
      rw [ask_eq (hlt i hi)]
      cases g.kind i <;> rfl
  have hindex : flatMap c.indexEvidence g.live =
      .ok (g.live.flatMap (Infer.Context.of g (.resolve g)).indexEvidence) := by
    refine flatMap_ok fun i hi => ?_
    have hchild := h.kind_children_lt i
    unfold Context.indexEvidence Infer.Context.indexEvidence
    rw [hc.graph, Infer.Context.of_graph, kind_eq (hlt i hi), ok_bind]
    generalize g.kind i = k at hchild
    cases k
    case index object property =>
      dsimp only
      rw [literalIndex?_eq (hchild property (by simp [Kind.children]))]
      rfl
    all_goals rfl
  unfold Context.evidence Infer.Context.evidence
  rw [hc.order, Infer.Context.of_order, harray, ok_bind, hcall, ok_bind, hindex]
  rfl

end ShaderScript.Checked
