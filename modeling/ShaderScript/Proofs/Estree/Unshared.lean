import ShaderScript.Estree.Intake
import ShaderScript.Proofs.Graph.Postorder
import ShaderScript.Proofs.Renumber.Tree

/-!
# Documents give trees

Every node of a document becomes a node of its own, and that node goes into one place.

* `Graph.Sown`: the nodes of a graph form trees, and some of the trees are still loose.
* **`Graph.Sown.add`**: a new node takes loose trees in.
* `Sows`: what a computation leaves loose, with one rule for each way to build computations.
* `sows_expr`, `sows_statement`, …: what each part of a document leaves loose.
* **`isTree_ofJson`**, **`unshared_bare_ofJson`**: the program of a document is a linked tree, with no
  shared nodes and no facts.
-/

namespace ShaderScript

namespace Graph

/-- The nodes of a graph form trees without facts, and the listed ones are in no other. -/
structure Sown (g : Graph) (loose : List Id) : Prop where
  child_lt : ∀ i, ∀ c ∈ g.children i, c < i
  nodup : ∀ i, (g.children i).Nodup
  holder : ∀ i j c, c ∈ g.children i → c ∈ g.children j → i = j
  loose_lt : ∀ i ∈ loose, i < g.size
  loose_nodup : loose.Nodup
  loose_free : ∀ i ∈ loose, ∀ j, i ∉ g.children j
  bare : ∀ i, g.node i = { kind := g.kind i }
  /-- The loose trees hold all nodes, numbered from the bottom up. -/
  order : loose.flatMap g.postorder = List.range g.size

namespace Sown

variable {g : Graph} {loose : List Id} {k : Kind}

theorem empty (hg : g.size = 0) : g.Sown [] := by
  have hnode : ∀ i, g.node i = default := fun i => node_of_size_le (hg ▸ Nat.zero_le i)
  have hchildren : ∀ i, g.children i = [] := fun i => by
    unfold children kind
    rw [hnode]
    rfl
  refine ⟨fun i c hc => ?_, fun i => ?_, fun i j c hc => ?_, nofun, .nil, nofun, fun i => ?_, ?_⟩
  · rw [hchildren] at hc
    cases hc
  · rw [hchildren]
    exact .nil
  · rw [hchildren] at hc
    cases hc
  · unfold kind
    rw [hnode]
    rfl
  · rw [hg]
    rfl

/-- **A new node takes loose trees in.** -/
theorem add (h : g.Sown (loose ++ k.children)) :
    (g.add [{ kind := k }]).Sown (loose ++ [g.size]) := by
  have hlt : ∀ {i}, i ∈ k.children → i < g.size := fun hi =>
    h.loose_lt _ (List.mem_append_right _ hi)
  have hfree : ∀ {i}, i ∈ k.children → ∀ j, i ∉ g.children j := fun hi =>
    h.loose_free _ (List.mem_append_right _ hi)
  obtain ⟨hloose, hparts, hdisjoint⟩ := List.nodup_append.mp h.loose_nodup
  refine ⟨fun i c hc => ?_, fun i => ?_, fun i j c hi hj => ?_, fun i hi => ?_, ?_,
    fun i hi j hj => ?_, fun i => ?_, ?_⟩
  · rw [children_add_one] at hc
    split_ifs at hc with hi
    · exact hi ▸ hlt hc
    · exact h.child_lt i c hc
  · rw [children_add_one]
    split_ifs
    · exact hparts
    · exact h.nodup i
  · rw [children_add_one] at hi hj
    split_ifs at hi hj with hin hjn hjn
    · exact hin.trans hjn.symm
    · exact absurd hj (hfree hi j)
    · exact absurd hi (hfree hj i)
    · exact h.holder i j c hi hj
  · rw [size_add]
    rcases List.mem_append.mp hi with hi | hi
    · exact Nat.lt_succ_of_lt (h.loose_lt i (List.mem_append_left _ hi))
    · exact List.mem_singleton.mp hi ▸ Nat.lt_succ_self _
  · refine List.nodup_append.mpr ⟨hloose, List.nodup_singleton _, fun i hi j hj => ?_⟩
    rw [List.mem_singleton.mp hj]
    exact (h.loose_lt i (List.mem_append_left _ hi)).ne
  · rw [children_add_one] at hj
    rcases List.mem_append.mp hi with hi | hi
    · split_ifs at hj
      · exact hdisjoint i hi i hj rfl
      · exact h.loose_free i (List.mem_append_left _ hi) j hj
    · obtain rfl := List.mem_singleton.mp hi
      split_ifs at hj
      · exact absurd (hlt hj) (Nat.lt_irrefl _)
      · exact absurd (h.child_lt j _ hj) (lt_size_of_mem_children hj).le.not_gt
  · unfold kind
    rw [node_add_one]
    split_ifs
    · rfl
    · exact h.bare i
  · have hold : ∀ i ∈ loose, (g.add [{ kind := k }]).postorder i = g.postorder i := fun i hi =>
      postorder_add_of_lt h.child_lt _ (h.loose_lt i (List.mem_append_left _ hi))
    rw [List.flatMap_append, List.flatMap_congr hold, List.flatMap_singleton,
      postorder_add_self h.child_lt _ fun c hc => hlt hc, ← List.append_assoc,
      ← List.flatMap_append, h.order, size_add, ← List.range_succ]
    rfl

theorem unshared (h : g.Sown [g.root]) : g.Unshared where
  root_lt := h.loose_lt _ (List.mem_singleton_self _)
  child_lt i _ c hc := (h.child_lt i c hc).trans (lt_size_of_mem_children hc)
  children_nodup i _ := h.nodup i
  holder_unique i _ j _ c hc hcj := h.holder i j c hc hcj
  root_free i _ := h.loose_free _ (List.mem_singleton_self _) i

end Sown

end Graph

namespace Draft

/-- The nodes of a draft. -/
def graph (d : Draft) : Graph := { nodes := d.nodes, root := 0 }

theorem add_graph (d : Draft) (k : Kind) :
    d.graph.add [{ kind := k }] = (Build.node k d).2.graph :=
  (congrArg Prod.snd (Graph.alloc_eq d.graph k)).symm

variable {d : Draft} (h : d.graph.Sown d.body)

include h

theorem sown_program : Graph.Sown
    { nodes := d.nodes.push { kind := .program d.body }, root := d.nodes.size } [d.nodes.size] := by
  have hadd : (d.graph.add [{ kind := .program d.body }]).Sown ([] ++ [d.graph.size]) :=
    Graph.Sown.add h
  rw [add_graph] at hadd
  refine { hadd with order := ?_ }
  -- the number of the root is not part of the walk
  have horder := hadd.order
  rwa [← Graph.postorder_congr (g := (Build.node (.program d.body) d).2.graph)
    (x := { nodes := d.nodes.push { kind := .program d.body }, root := d.nodes.size }) rfl
    fun _ => rfl] at horder

theorem isTree_finish : d.finish.IsTree := (sown_program h).unshared.isTree_link

theorem unshared_finish : d.finish.Unshared := (isTree_finish h).unshared

theorem bare_finish : d.finish.Bare := by
  intro i _
  have hpart := Graph.part_link (fun n => { n with parent := none }) (fun _ _ => rfl)
    { nodes := d.nodes.push { kind := .program d.body }, root := d.nodes.size } i
  rw [(sown_program h).bare] at hpart
  exact ⟨congrArg Node.ty hpart, congrArg Node.guessed hpart, congrArg Node.topIndex hpart,
    congrArg Node.hint hpart, congrArg Node.out hpart⟩

end Draft

namespace Estree

variable {α β : Type} {loose : List Id}

/-- Started in a draft with these loose trees, the computation leaves those. -/
def Sows (m : Intake α) (loose : List Id) (after : α → List Id) : Prop :=
  ∀ d : Draft, d.graph.Sown loose → ∀ a d', m d = .ok (a, d') → d'.graph.Sown (after a)

theorem sows_pure {a : α} {after : α → List Id} (h : after a = loose) :
    Sows (pure a) loose after := by
  rintro d hd _ _ ⟨rfl⟩
  rwa [h]

theorem sows_throw {e : Error} {after : α → List Id} : Sows (throw e) loose after := nofun

theorem Sows.bind {m : Intake α} {p : α → Intake β} {mid : α → List Id} {after : β → List Id}
    (hm : Sows m loose mid) (hp : ∀ a, Sows (p a) (mid a) after) : Sows (m >>= p) loose after := by
  intro d hd b d' hb
  change (m d >>= fun r => p r.1 r.2) = _ at hb
  cases hr : m d with
  | error e => rw [hr] at hb; cases hb
  | ok r =>
    rw [hr] at hb
    exact hp r.1 r.2 (hm d hd r.1 r.2 hr) b d' hb

theorem Sows.some {m : Intake Id} {before : List Id} (hm : Sows m before fun i => loose ++ [i]) :
    Sows (some <$> m) before fun o => loose ++ o.toList := by
  rw [map_eq_pure_bind]
  exact hm.bind fun i => sows_pure rfl

theorem sows_add {k : Kind} {before : List Id} (h : before = loose ++ k.children) :
    Sows (add k) before fun i => loose ++ [i] := by
  rintro d hd _ _ ⟨rfl⟩
  subst h
  exact d.add_graph k ▸ hd.add

theorem sows_operator (read? : String → Option α) (text : String) :
    Sows (operator read? text) loose fun _ => loose := by
  unfold operator
  split
  · exact sows_pure rfl
  · exact sows_throw

theorem sows_literalKind (value : LiteralValue) (raw : Option String) :
    Sows (literalKind value raw) loose fun k => loose ++ k.children := by
  unfold literalKind
  split
  · exact sows_pure (List.append_nil _)
  · exact sows_pure (List.append_nil _)
  · exact sows_throw

theorem sows_asBody (o : Option Id) :
    Sows (asBody o) (loose ++ o.toList) fun i => loose ++ [i] := by
  cases o with
  | none => exact sows_add rfl
  | some i => exact sows_pure rfl

/-! ## Documents -/

mutual

theorem sows_expr (loose : List Id) : ∀ e, Sows (expr e) loose fun i => loose ++ [i]
  | .conditionalExpression test consequent alternate => by
    unfold expr
    refine (sows_expr _ test).bind fun a => (sows_expr _ consequent).bind fun b =>
      (sows_expr _ alternate).bind fun c => sows_add ?_
    simp [Kind.children]
  | .binaryExpression op left right | .logicalExpression op left right => by
    unfold expr
    refine (sows_operator _ op).bind fun _ => (sows_expr _ left).bind fun a =>
      (sows_expr _ right).bind fun b => sows_add ?_
    simp [Kind.children]
  | .assignmentExpression op left right => by
    unfold expr
    refine (sows_operator _ op).bind fun _ => (sows_expr _ left).bind fun a =>
      (sows_expr _ right).bind fun b => sows_add ?_
    simp [Kind.children]
  | .unaryExpression op argument => by
    unfold expr
    exact (sows_operator _ op).bind fun _ => (sows_expr _ argument).bind fun a => sows_add rfl
  | .updateExpression op leading argument => by
    unfold expr
    exact (sows_operator _ op).bind fun _ => (sows_expr _ argument).bind fun a => sows_add rfl
  | .callExpression callee arguments => by
    unfold expr
    refine (sows_expr _ callee).bind fun a => (sows_exprs _ arguments).bind fun b => sows_add ?_
    simp [Kind.children]
  | .memberExpression object property computed => by
    unfold expr
    refine (sows_expr _ object).bind fun a => (sows_expr _ property).bind fun b => sows_add ?_
    cases computed <;> simp [Kind.children]
  | .arrayExpression elements => by
    unfold expr
    exact (sows_exprs _ elements).bind fun a => sows_add rfl
  | .sequenceExpression expressions => by
    unfold expr
    exact (sows_exprs _ expressions).bind fun a => sows_add rfl
  | .identifier name => by
    unfold expr
    exact sows_add (List.append_nil _).symm
  | .thisExpression => by
    unfold expr
    exact sows_add (List.append_nil _).symm
  | .literal value raw => by
    unfold expr
    exact (sows_literalKind value raw).bind fun k => sows_add rfl
  | .program .. | .functionDeclaration .. | .variableDeclaration .. | .variableDeclarator ..
  | .blockStatement .. | .expressionStatement .. | .emptyStatement | .ifStatement ..
  | .forStatement .. | .returnStatement .. => by
    unfold expr
    exact sows_throw

theorem sows_exprs (loose : List Id) : ∀ es, Sows (exprs es) loose fun is => loose ++ is
  | [] => by
    unfold exprs
    exact sows_pure (List.append_nil _)
  | e :: es => by
    unfold exprs
    refine (sows_expr _ e).bind fun i => (sows_exprs _ es).bind fun is => sows_pure ?_
    simp

theorem sows_optionalExpr (loose : List Id) :
    ∀ o, Sows (optionalExpr o) loose fun i => loose ++ i.toList
  | none => by
    unfold optionalExpr
    exact sows_pure (List.append_nil _)
  | some e => by
    rw [optionalExpr]
    exact (sows_expr loose e).some

theorem sows_declarators (loose : List Id) :
    ∀ ds, Sows (declarators ds) loose fun is => loose ++ is
  | [] => by
    unfold declarators
    exact sows_pure (List.append_nil _)
  | .variableDeclarator id init :: ds => by
    unfold declarators
    refine (sows_expr _ id).bind fun a => (sows_optionalExpr _ init).bind fun b => ?_
    have hparts : loose ++ [a] ++ b.toList = loose ++ (Kind.declarator a b).children := by
      simp [Kind.children]
    refine (sows_add hparts).bind fun i => (sows_declarators _ ds).bind fun is =>
      sows_pure ?_
    simp
  | .program .. :: _ | .functionDeclaration .. :: _ | .variableDeclaration .. :: _
  | .blockStatement .. :: _ | .expressionStatement .. :: _ | .emptyStatement :: _
  | .ifStatement .. :: _ | .forStatement .. :: _ | .returnStatement .. :: _
  | .conditionalExpression .. :: _ | .binaryExpression .. :: _ | .logicalExpression .. :: _
  | .assignmentExpression .. :: _ | .unaryExpression .. :: _ | .updateExpression .. :: _
  | .callExpression .. :: _ | .memberExpression .. :: _ | .arrayExpression .. :: _
  | .identifier .. :: _ | .thisExpression :: _ | .literal .. :: _
  | .sequenceExpression .. :: _ => by
    unfold declarators
    exact sows_throw

theorem sows_statement (loose : List Id) :
    ∀ s, Sows (statement s) loose fun i => loose ++ i.toList
  | .emptyStatement => by
    unfold statement
    exact sows_pure (List.append_nil _)
  | .functionDeclaration id params body => by
    unfold statement
    refine (sows_expr _ id).bind fun a => (sows_exprs _ params).bind fun b =>
      (sows_statement _ body).bind fun c => (sows_asBody c).bind fun i => (sows_add ?_).some
    simp [Kind.children]
  | .variableDeclaration ds => by
    unfold statement
    exact (sows_declarators _ ds).bind fun a => (sows_add rfl).some
  | .blockStatement body => by
    unfold statement
    exact (sows_statements _ body).bind fun a => (sows_add rfl).some
  | .expressionStatement e => by
    unfold statement
    exact (sows_expr _ e).bind fun a => (sows_add rfl).some
  | .ifStatement test consequent alternate => by
    unfold statement
    refine (sows_expr _ test).bind fun a => (sows_statement _ consequent).bind fun b =>
      (sows_asBody b).bind fun i => (sows_optionalBody _ alternate).bind fun c =>
        (sows_add ?_).some
    simp [Kind.children]
  | .forStatement init test step body => by
    unfold statement
    refine (sows_header _ init).bind fun a => (sows_optionalExpr _ test).bind fun b =>
      (sows_optionalExpr _ step).bind fun c => (sows_statement _ body).bind fun e =>
        (sows_asBody e).bind fun i => (sows_add ?_).some
    simp [Kind.children]
  | .returnStatement argument => by
    unfold statement
    exact (sows_optionalExpr _ argument).bind fun a => (sows_add rfl).some
  | .program .. | .variableDeclarator .. | .conditionalExpression .. | .binaryExpression ..
  | .logicalExpression .. | .assignmentExpression .. | .unaryExpression ..
  | .updateExpression .. | .callExpression .. | .memberExpression .. | .arrayExpression ..
  | .identifier .. | .thisExpression | .literal .. | .sequenceExpression .. => by
    unfold statement
    exact sows_throw

theorem sows_statements (loose : List Id) :
    ∀ ss, Sows (statements ss) loose fun is => loose ++ is
  | [] => by
    unfold statements
    exact sows_pure (List.append_nil _)
  | s :: ss => by
    unfold statements
    refine (sows_statement _ s).bind fun i => (sows_statements _ ss).bind fun is => sows_pure ?_
    simp

theorem sows_optionalBody (loose : List Id) :
    ∀ o, Sows (optionalBody o) loose fun i => loose ++ i.toList
  | none => by
    unfold optionalBody
    exact sows_pure (List.append_nil _)
  | some s => by
    rw [optionalBody]
    exact (sows_statement loose s).bind fun i => (sows_asBody i).some

theorem sows_header (loose : List Id) :
    ∀ o, Sows (header o) loose fun i => loose ++ i.toList
  | none => by
    unfold header
    exact sows_pure (List.append_nil _)
  | some (.variableDeclaration ds) => by
    rw [header]
    exact (sows_declarators _ ds).bind fun a => (sows_add rfl).some
  | some (.program ..) | some (.functionDeclaration ..) | some (.variableDeclarator ..)
  | some (.blockStatement ..) | some (.expressionStatement ..) | some .emptyStatement
  | some (.ifStatement ..) | some (.forStatement ..) | some (.returnStatement ..)
  | some (.conditionalExpression ..) | some (.binaryExpression ..)
  | some (.logicalExpression ..) | some (.assignmentExpression ..) | some (.unaryExpression ..)
  | some (.updateExpression ..) | some (.callExpression ..) | some (.memberExpression ..)
  | some (.arrayExpression ..) | some (.identifier ..) | some .thisExpression
  | some (.literal ..) | some (.sequenceExpression ..) => by
    rw [header]
    · exact (sows_expr loose _).some
    · nofun

end

/-! ## Programs -/

theorem exists_draft {body : List Node} {g : Graph} (hg : ofStatements body = .ok g) :
    ∃ d : Draft, d.graph.Sown d.body ∧ g = d.finish := by
  unfold ofStatements at hg
  change ((statements body) {} >>= fun r => pure { r.2 with body := r.1 }.finish) = _ at hg
  cases hr : statements body {} with
  | error e => rw [hr] at hg; cases hg
  | ok r =>
    rw [hr] at hg
    cases hg
    exact ⟨_, sows_statements [] body {} (.empty rfl) r.1 r.2 hr, rfl⟩

theorem exists_draft_ofJson {v : Json} {g : Graph} (hg : ofJson v = .ok g) :
    ∃ d : Draft, d.graph.Sown d.body ∧ g = d.finish := by
  unfold ofJson at hg
  split at hg
  case h_1 => cases hg
  case h_2 =>
    split at hg
    case h_2 body _ => exact exists_draft hg
    all_goals cases hg

/-- **The program of a document is a tree with its parents linked.** -/
theorem isTree_ofJson {v : Json} {g : Graph} (hg : ofJson v = .ok g) : g.IsTree := by
  obtain ⟨d, hd, rfl⟩ := exists_draft_ofJson hg
  exact d.isTree_finish hd

/-- **The program of a document has no shared nodes and no facts.** -/
theorem unshared_bare_ofJson {v : Json} {g : Graph} (hg : ofJson v = .ok g) :
    g.Unshared ∧ g.Bare := by
  obtain ⟨d, hd, rfl⟩ := exists_draft_ofJson hg
  exact ⟨d.unshared_finish hd, d.bare_finish hd⟩

end Estree

end ShaderScript
