import ShaderScript.Proofs.Estree.Places
import ShaderScript.Proofs.Estree.Unshared
import ShaderScript.Proofs.Graph.Subtree

/-!
# Documents give the programs that they say

Reading a document stops at the first place that something is wrong with. If there is none, the
program has one node for each node of the document, with its parts in the order of fields.

* `Graph.Bears`: a node unfolds to a tree, whatever nodes are added.
* `Runs`: what a computation gives from a draft on, with one rule for each way to build
  computations.
* `runs_expr`, `runs_statement`, …: what each part of a document gives.
* **`ofJson_faithful`**: when a document gives a program, which program it gives, and which error it
  gives otherwise.
-/

namespace ShaderScript

namespace Graph

variable {g x y : Graph} {i : Id} {t : Tree} {ts : List Tree} {is : List Id}

/-! ## Trees in a graph that grows -/

/-- The graph `x` starts with the nodes of `g`. -/
structure Starts (g x : Graph) : Prop where
  size : g.size ≤ x.size
  kind : ∀ i < g.size, x.kind i = g.kind i

theorem Starts.refl (g : Graph) : Starts g g := ⟨le_rfl, fun _ _ => rfl⟩

theorem Starts.trans (h : Starts g x) (h' : Starts x y) : Starts g y :=
  ⟨h.size.trans h'.size, fun i hi => (h'.kind i (hi.trans_le h.size)).trans (h.kind i hi)⟩

/-- However the graph grows, the node unfolds to the tree. -/
def Bears (g : Graph) (i : Id) (t : Tree) : Prop :=
  ∀ x, Starts g x → ∃ n, ∀ m, n ≤ m → x.unfold m i = t

theorem Bears.mono (h : g.Bears i t) (hx : Starts g x) : x.Bears i t :=
  fun y hy => h y (hx.trans hy)

theorem bears_mono (h : List.Forall₂ g.Bears is ts) (hx : Starts g x) :
    List.Forall₂ x.Bears is ts := h.imp fun _ _ hb => hb.mono hx

/-- Finitely many trees are unfolded to a common depth. -/
theorem exists_unfold_of_bears (h : List.Forall₂ g.Bears is ts) :
    ∃ n, ∀ m, n ≤ m → is.map (g.unfold m) = ts := by
  induction h with
  | nil => exact ⟨0, fun _ _ => rfl⟩
  | cons hi _ ih =>
    obtain ⟨n, hn⟩ := hi g (.refl g)
    obtain ⟨k, hk⟩ := ih
    refine ⟨max n k, fun m hm => ?_⟩
    rw [List.map_cons, hn m (le_of_max_le_left hm), hk m (le_of_max_le_right hm)]

theorem bears_node (hi : i < g.size) (h : List.Forall₂ g.Bears (g.children i) ts) :
    g.Bears i (.node (g.kind i).label ts) := by
  intro x hx
  have hchildren : x.children i = g.children i := congrArg Kind.children (hx.kind i hi)
  obtain ⟨n, hn⟩ := exists_unfold_of_bears (bears_mono h hx)
  refine ⟨n + 1, fun m hm => ?_⟩
  obtain ⟨m, rfl⟩ := Nat.exists_eq_add_of_le' (Nat.one_le_of_lt hm)
  rw [unfold, hchildren, hx.kind i hi, hn m (Nat.le_of_succ_le_succ hm)]

theorem unfold_eq_of_le {n m : Nat} (hn : ∀ d j, g.Below i d j → d ≤ n) (hm : n ≤ m) :
    g.unfold m i = g.unfold n i := by
  induction n generalizing m i with
  | zero =>
    have hleaf : g.children i = [] := List.eq_nil_iff_forall_not_mem.mpr fun c hc =>
      absurd (hn 1 c (.step .refl hc)) (Nat.not_succ_le_zero 0)
    cases m with
    | zero => rfl
    | succ m => rw [unfold, unfold, hleaf, List.map_nil]
  | succ n ih =>
    obtain ⟨m, rfl⟩ := Nat.exists_eq_add_of_le' (Nat.one_le_of_lt hm)
    rw [unfold, unfold]
    refine congrArg (Tree.node _) (List.map_congr_left fun c hc => ?_)
    exact ih (fun d j hd => Nat.le_of_succ_le_succ (hn (d + 1) j (hd.cons hc)))
      (Nat.le_of_succ_le_succ hm)

theorem Unshared.tree_eq (hg : g.Unshared) (h : g.Bears g.root t) : g.tree = t := by
  obtain ⟨n, hn⟩ := h g (.refl g)
  rw [tree, ← hn (max n g.size) (le_max_left _ _)]
  exact (unfold_eq_of_le (fun d j hd => (hg.depth_lt hd).le) (le_max_right _ _)).symm

end Graph

namespace Estree

open Graph

variable {α β : Type} {d : Draft} {f f' : Option Error}

/-! ## What computations give -/

/-- Started in a draft, the computation gives the error if there is one. Otherwise it adds to the
draft, and its result is as said. -/
def Runs (d : Draft) (f : Option Error) (m : Intake α) (result : α → Graph → Prop) : Prop :=
  match f with
  | some e => m d = .error e
  | none => ∃ a d', m d = .ok (a, d') ∧ Starts d.graph d'.graph ∧ result a d'.graph

theorem runs_pure {a : α} {result : α → Graph → Prop} (h : result a d.graph) :
    Runs d none (pure a) result := ⟨a, d, rfl, .refl _, h⟩

theorem runs_throw {e : Error} {result : α → Graph → Prop} : Runs d (some e) (throw e) result := rfl

/-- The second of two computations starts where the first ends, if that does not fail. -/
theorem Runs.bind {m : Intake α} {p : α → Intake β} {mid : α → Graph → Prop}
    {result : β → Graph → Prop} (hm : Runs d f m mid)
    (hp : ∀ a d', Starts d.graph d'.graph → mid a d'.graph → Runs d' f' (p a) result) :
    Runs d (f.or f') (m >>= p) result := by
  have hbind : ∀ r, m d = r → (m >>= p) d = r >>= fun q => p q.1 q.2 := fun r hr => hr ▸ rfl
  cases f with
  | some e => exact (hbind _ hm).trans rfl
  | none =>
    obtain ⟨a, d', hok, hstarts, hmid⟩ := hm
    have hrest := hp a d' hstarts hmid
    cases f' with
    | some e => exact (hbind _ hok).trans hrest
    | none =>
      obtain ⟨b, d'', hok', hstarts', hresult⟩ := hrest
      exact ⟨b, d'', (hbind _ hok).trans hok', hstarts.trans hstarts', hresult⟩

theorem Runs.sure_bind {m : Intake α} {p : α → Intake β} {mid : α → Graph → Prop}
    {result : β → Graph → Prop} (hm : Runs d none m mid)
    (hp : ∀ a d', Starts d.graph d'.graph → mid a d'.graph → Runs d' f (p a) result) :
    Runs d f (m >>= p) result := hm.bind hp

theorem Runs.bind_sure {m : Intake α} {p : α → Intake β} {mid : α → Graph → Prop}
    {result : β → Graph → Prop} (hm : Runs d f m mid)
    (hp : ∀ a d', Starts d.graph d'.graph → mid a d'.graph → Runs d' none (p a) result) :
    Runs d f (m >>= p) result := by
  have hbind := hm.bind hp
  rwa [Option.or_none] at hbind

theorem Runs.operator_bind {read? : String → Option α} {text : String} {p : α → Intake β}
    {result : β → Graph → Prop} (h : ∀ op, read? text = some op → Runs d f (p op) result) :
    Runs d ((unread? read? text).or f) (operator read? text >>= p) result := by
  unfold unread? operator
  cases hread : read? text with
  | none => exact rfl
  | some op => exact h op hread

theorem runs_add {k l : Kind} {ts : List Tree} (h : List.Forall₂ d.graph.Bears k.children ts)
    (hl : k.label = l) : Runs d none (add k) fun i x => x.Bears i (.node l ts) := by
  have hadd := d.add_graph k
  have hsize : d.graph.size < (Build.node k d).2.graph.size := by
    rw [← hadd, size_add]
    exact Nat.lt_succ_self _
  have hstarts : Starts d.graph (Build.node k d).2.graph := by
    refine ⟨hsize.le, fun i hi => ?_⟩
    unfold kind
    rw [← hadd, node_add_of_lt _ hi]
  have hkind : (Build.node k d).2.graph.kind d.graph.size = k := by
    unfold kind
    rw [← hadd, node_add_one, if_pos rfl]
  refine ⟨_, _, rfl, hstarts, ?_⟩
  have hparts : List.Forall₂ (Build.node k d).2.graph.Bears
      ((Build.node k d).2.graph.children d.graph.size) ts := by
    rw [children, hkind]
    exact bears_mono h hstarts
  have hnode := bears_node hsize hparts
  rwa [hkind, hl] at hnode

theorem runs_some_add {k l : Kind} {ts : List Tree}
    (h : List.Forall₂ d.graph.Bears k.children ts) (hl : k.label = l) :
    Runs d none (some <$> add k) fun o x => List.Forall₂ x.Bears o.toList [.node l ts] := by
  rw [map_eq_pure_bind]
  exact (runs_add h hl).bind_sure fun i d' _ hi => runs_pure (.cons hi .nil)

theorem blanks_eq {R : Id → Tree → Prop} {is : List Id} {ts : List Tree}
    (h : List.Forall₂ R is ts) : (is.map fun _ => 0) = blanks ts := by
  unfold blanks
  rw [List.map_const', List.map_const', h.length_eq]

theorem blank_eq {R : Id → Tree → Prop} {o : Option Id} {n : Option Node}
    (h : List.Forall₂ R o.toList (treesIf n)) : (o.map fun _ => 0) = n.map fun _ => 0 := by
  cases o <;> cases n <;> first | rfl | cases h

/-- In the head of a `for` statement, only a `var` is not read as an expression. -/
theorem firstFault?_header {n : Node} (h : ∀ ds, n ≠ .variableDeclaration ds) :
    firstFault? (n.places .header) = firstFault? (n.places .expression) := by
  cases n
  case variableDeclaration ds => exact absurd rfl (h ds)
  all_goals rfl

/-- What a list of statements starts with does not matter for the rest. -/
theorem treesListed_cons (s : Node) (ss : List Node) :
    treesListed (s :: ss) = treesListed [s] ++ treesListed ss := by
  cases s <;> rfl

/-- What stands as a body is the statement, or an empty block for an empty one. -/
theorem runs_asBody {s : Node} {o : Option Id}
    (h : List.Forall₂ d.graph.Bears o.toList (treesListed [s])) :
    Runs d none (asBody o) fun i x => x.Bears i s.tree := by
  cases o with
  | some i =>
    refine runs_pure ?_
    cases s <;> first | exact (List.forall₂_cons.mp h).1 | cases h
  | none =>
    cases s
    case emptyStatement => exact runs_add .nil rfl
    all_goals cases h

/-! ## Documents -/

mutual

theorem runs_expr : ∀ (e : Node) (d : Draft),
    Runs d (firstFault? (e.places .expression)) (expr e) fun i x => x.Bears i e.tree
  | .conditionalExpression test consequent alternate, d => by
    rw [expr, Node.places, firstFault?_cons, firstFault?_append, firstFault?_append]
    exact (runs_expr test d).bind fun a d₁ _ ha => (runs_expr consequent d₁).bind fun b d₂ h₂ hb =>
      (runs_expr alternate d₂).bind_sure fun c d₃ h₃ hc =>
        runs_add (.cons (ha.mono (h₂.trans h₃)) (.cons (hb.mono h₃) (.cons hc .nil))) rfl
  | .binaryExpression op left right, d | .logicalExpression op left right, d => by
    rw [expr, Node.places, firstFault?_cons, firstFault?_append]
    refine Runs.operator_bind fun o ho => (runs_expr left d).bind fun a d₁ _ ha =>
      (runs_expr right d₁).bind_sure fun b d₂ h₂ hb =>
        runs_add (.cons (ha.mono h₂) (.cons hb .nil)) ?_
    rw [ho]
    rfl
  | .assignmentExpression op left right, d => by
    rw [expr, Node.places, firstFault?_cons, firstFault?_append]
    refine Runs.operator_bind fun o ho => (runs_expr left d).bind fun a d₁ _ ha =>
      (runs_expr right d₁).bind_sure fun b d₂ h₂ hb =>
        runs_add (.cons (ha.mono h₂) (.cons hb .nil)) ?_
    rw [ho]
    rfl
  | .unaryExpression op argument, d => by
    rw [expr, Node.places, firstFault?_cons]
    refine Runs.operator_bind fun o ho => (runs_expr argument d).bind_sure fun a d₁ _ ha =>
      runs_add (.cons ha .nil) ?_
    rw [ho]
    rfl
  | .updateExpression op leading argument, d => by
    rw [expr, Node.places, firstFault?_cons]
    refine Runs.operator_bind fun o ho => (runs_expr argument d).bind_sure fun a d₁ _ ha =>
      runs_add (.cons ha .nil) ?_
    rw [ho]
    rfl
  | .callExpression callee arguments, d => by
    rw [expr, Node.places, firstFault?_cons, firstFault?_append]
    exact (runs_expr callee d).bind fun a d₁ _ ha =>
      (runs_exprs arguments d₁).bind_sure fun is d₂ h₂ his =>
        runs_add (.cons (ha.mono h₂) his) (congrArg (Kind.call 0) (blanks_eq his))
  | .memberExpression object property computed, d => by
    rw [expr, Node.places, firstFault?_cons, firstFault?_append]
    refine (runs_expr object d).bind fun a d₁ _ ha =>
      (runs_expr property d₁).bind_sure fun b d₂ h₂ hb => runs_add ?_ ?_
    · cases computed <;> exact .cons (ha.mono h₂) (.cons hb .nil)
    · cases computed <;> rfl
  | .arrayExpression elements, d => by
    rw [expr, Node.places, firstFault?_cons]
    exact (runs_exprs elements d).bind_sure fun is d₁ _ his =>
      runs_add his (congrArg Kind.array (blanks_eq his))
  | .sequenceExpression expressions, d => by
    rw [expr, Node.places, firstFault?_cons]
    exact (runs_exprs expressions d).bind_sure fun is d₁ _ his =>
      runs_add his (congrArg Kind.sequence (blanks_eq his))
  | .identifier name, d => by
    rw [expr, Node.places]
    exact runs_add .nil rfl
  | .thisExpression, d => by
    rw [expr, Node.places]
    exact runs_add .nil rfl
  | .literal value raw, d => by
    rw [expr, Node.places]
    cases value with
    | bool value => exact runs_add .nil rfl
    | number text => exact runs_add .nil rfl
    | other text => exact rfl
  | .program .., d | .functionDeclaration .., d | .variableDeclaration .., d
  | .variableDeclarator .., d | .blockStatement .., d | .expressionStatement .., d
  | .emptyStatement, d | .ifStatement .., d | .forStatement .., d | .returnStatement .., d => by
    rw [expr, Node.places]
    exact runs_throw

theorem runs_exprs : ∀ (es : List Node) (d : Draft),
    Runs d (firstFault? (placesOf .expression es)) (exprs es)
      fun is x => List.Forall₂ x.Bears is (treesOf es)
  | [], d => by
    rw [exprs]
    exact runs_pure .nil
  | e :: es, d => by
    rw [exprs, placesOf, firstFault?_append]
    exact (runs_expr e d).bind fun i d₁ _ hi => (runs_exprs es d₁).bind_sure fun is d₂ h₂ his =>
      runs_pure (.cons (hi.mono h₂) his)

theorem runs_optionalExpr : ∀ (o : Option Node) (d : Draft),
    Runs d (firstFault? (placesIf .expression o)) (optionalExpr o)
      fun i x => List.Forall₂ x.Bears i.toList (treesIf o)
  | none, d => by
    rw [optionalExpr]
    exact runs_pure .nil
  | some e, d => by
    rw [optionalExpr, map_eq_pure_bind]
    exact (runs_expr e d).bind_sure fun i d₁ _ hi => runs_pure (.cons hi .nil)

theorem runs_declarators : ∀ (ds : List Node) (d : Draft),
    Runs d (firstFault? (placesOf .declaration ds)) (declarators ds)
      fun is x => List.Forall₂ x.Bears is (treesOf ds)
  | [], d => by
    rw [declarators]
    exact runs_pure .nil
  | .variableDeclarator id init :: ds, d => by
    rw [declarators, placesOf, Node.places, List.cons_append, List.append_assoc, firstFault?_cons,
      firstFault?_append, firstFault?_append]
    refine (runs_expr id d).bind fun a d₁ _ ha => (runs_optionalExpr init d₁).bind
      fun b d₂ h₂ hb => ?_
    have hnew : Runs d₂ none (add (.declarator a b)) fun i x =>
        x.Bears i (Node.variableDeclarator id init).tree :=
      runs_add (.cons (ha.mono h₂) hb) (congrArg (Kind.declarator 0) (blank_eq hb))
    exact hnew.sure_bind fun i d₃ _ hi => (runs_declarators ds d₃).bind_sure fun is d₄ h₄ his =>
      runs_pure (.cons (hi.mono h₄) his)
  | .program .. :: _, d | .functionDeclaration .. :: _, d | .variableDeclaration .. :: _, d
  | .blockStatement .. :: _, d | .expressionStatement .. :: _, d | .emptyStatement :: _, d
  | .ifStatement .. :: _, d | .forStatement .. :: _, d | .returnStatement .. :: _, d
  | .conditionalExpression .. :: _, d | .binaryExpression .. :: _, d
  | .logicalExpression .. :: _, d | .assignmentExpression .. :: _, d | .unaryExpression .. :: _, d
  | .updateExpression .. :: _, d | .callExpression .. :: _, d | .memberExpression .. :: _, d
  | .arrayExpression .. :: _, d | .identifier .. :: _, d | .thisExpression :: _, d
  | .literal .. :: _, d | .sequenceExpression .. :: _, d => by
    rw [declarators, placesOf, Node.places]
    · exact runs_throw
    · nofun

theorem runs_statement : ∀ (s : Node) (d : Draft),
    Runs d (firstFault? (s.places .statement)) (statement s)
      fun o x => List.Forall₂ x.Bears o.toList (treesListed [s])
  | .emptyStatement, d => by
    rw [statement, Node.places]
    exact runs_pure .nil
  | .functionDeclaration id params body, d => by
    rw [statement, Node.places, firstFault?_cons, firstFault?_append, firstFault?_append]
    refine (runs_expr id d).bind fun a d₁ _ ha => (runs_exprs params d₁).bind fun is d₂ h₂ his =>
      (runs_statement body d₂).bind_sure fun o d₃ h₃ ho => (runs_asBody ho).bind_sure
        fun i d₄ h₄ hi => runs_some_add (.cons (ha.mono (h₂.trans (h₃.trans h₄))) ?_) ?_
    · exact List.rel_append (bears_mono his (h₃.trans h₄)) (.cons hi .nil)
    · exact congrArg (Kind.function 0 · 0) (blanks_eq his)
  | .variableDeclaration ds, d => by
    rw [statement, Node.places, firstFault?_cons]
    exact (runs_declarators ds d).bind_sure fun is d₁ _ his =>
      runs_some_add his (congrArg Kind.varDecl (blanks_eq his))
  | .blockStatement body, d => by
    rw [statement, Node.places, firstFault?_cons]
    exact (runs_statements body d).bind_sure fun is d₁ _ his =>
      runs_some_add his (congrArg Kind.block (blanks_eq his))
  | .expressionStatement e, d => by
    rw [statement, Node.places, firstFault?_cons]
    exact (runs_expr e d).bind_sure fun a d₁ _ ha => runs_some_add (.cons ha .nil) rfl
  | .ifStatement test consequent alternate, d => by
    rw [statement, Node.places, firstFault?_cons, firstFault?_append, firstFault?_append]
    refine (runs_expr test d).bind fun a d₁ _ ha => (runs_statement consequent d₁).bind
      fun o d₂ h₂ ho => (runs_asBody ho).sure_bind fun i d₃ h₃ hi =>
        (runs_optionalBody alternate d₃).bind_sure fun b d₄ h₄ hb => runs_some_add ?_ ?_
    · exact .cons (ha.mono (h₂.trans (h₃.trans h₄))) (.cons (hi.mono h₄) hb)
    · exact congrArg (Kind.ifElse 0 0) (blank_eq hb)
  | .forStatement init test step body, d => by
    rw [statement, Node.places, firstFault?_cons, firstFault?_append, firstFault?_append,
      firstFault?_append]
    refine (runs_header init d).bind fun a d₁ _ ha => (runs_optionalExpr test d₁).bind
      fun b d₂ h₂ hb => (runs_optionalExpr step d₂).bind fun c d₃ h₃ hc =>
        (runs_statement body d₃).bind_sure fun o d₄ h₄ ho => (runs_asBody ho).bind_sure
          fun i d₅ h₅ hi => ?_
    have hinit := bears_mono ha (h₂.trans (h₃.trans (h₄.trans h₅)))
    have htest := bears_mono hb (h₃.trans (h₄.trans h₅))
    have hstep := bears_mono hc (h₄.trans h₅)
    refine runs_some_add ?_ ?_
    · exact List.rel_append hinit (List.rel_append htest (List.rel_append hstep (.cons hi .nil)))
    · change Kind.forLoop (a.map _) (b.map _) (c.map _) 0 = _
      rw [blank_eq ha, blank_eq hb, blank_eq hc]
  | .returnStatement argument, d => by
    rw [statement, Node.places, firstFault?_cons]
    exact (runs_optionalExpr argument d).bind_sure fun o d₁ _ ho =>
      runs_some_add ho (congrArg Kind.ret (blank_eq ho))
  | .program .., d | .variableDeclarator .., d | .conditionalExpression .., d
  | .binaryExpression .., d | .logicalExpression .., d | .assignmentExpression .., d
  | .unaryExpression .., d | .updateExpression .., d | .callExpression .., d
  | .memberExpression .., d | .arrayExpression .., d | .identifier .., d | .thisExpression, d
  | .literal .., d | .sequenceExpression .., d => by
    rw [statement, Node.places]
    exact runs_throw

theorem runs_statements : ∀ (ss : List Node) (d : Draft),
    Runs d (firstFault? (placesOf .statement ss)) (statements ss)
      fun is x => List.Forall₂ x.Bears is (treesListed ss)
  | [], d => by
    rw [statements]
    exact runs_pure .nil
  | s :: ss, d => by
    rw [statements, placesOf, firstFault?_append]
    refine (runs_statement s d).bind fun o d₁ _ ho => (runs_statements ss d₁).bind_sure
      fun is d₂ h₂ his => runs_pure ?_
    rw [treesListed_cons]
    exact List.rel_append (bears_mono ho h₂) his

theorem runs_optionalBody : ∀ (o : Option Node) (d : Draft),
    Runs d (firstFault? (placesIf .statement o)) (optionalBody o)
      fun i x => List.Forall₂ x.Bears i.toList (treesIf o)
  | none, d => by
    rw [optionalBody]
    exact runs_pure .nil
  | some s, d => by
    rw [optionalBody]
    refine (runs_statement s d).bind_sure fun o d₁ _ ho => ?_
    rw [map_eq_pure_bind]
    exact (runs_asBody ho).bind_sure fun i d₂ _ hi => runs_pure (.cons hi .nil)

theorem runs_header : ∀ (o : Option Node) (d : Draft),
    Runs d (firstFault? (placesIf .header o)) (header o)
      fun i x => List.Forall₂ x.Bears i.toList (treesIf o)
  | none, d => by
    rw [header]
    exact runs_pure .nil
  | some (.variableDeclaration ds), d => by
    rw [header, placesIf, Node.places, firstFault?_cons]
    exact (runs_declarators ds d).bind_sure fun is d₁ _ his =>
      runs_some_add his (congrArg Kind.varDecl (blanks_eq his))
  | some (.program ..), d | some (.functionDeclaration ..), d | some (.variableDeclarator ..), d
  | some (.blockStatement ..), d | some (.expressionStatement ..), d | some .emptyStatement, d
  | some (.ifStatement ..), d | some (.forStatement ..), d | some (.returnStatement ..), d
  | some (.conditionalExpression ..), d | some (.binaryExpression ..), d
  | some (.logicalExpression ..), d | some (.assignmentExpression ..), d
  | some (.unaryExpression ..), d | some (.updateExpression ..), d | some (.callExpression ..), d
  | some (.memberExpression ..), d | some (.arrayExpression ..), d | some (.identifier ..), d
  | some .thisExpression, d | some (.literal ..), d | some (.sequenceExpression ..), d => by
    rw [header, map_eq_pure_bind, placesIf, firstFault?_header]
    · exact (runs_expr _ d).bind_sure fun i d₁ _ hi => runs_pure (.cons hi .nil)
    all_goals nofun

end

/-! ## Programs -/

theorem bears_finish {d : Draft} {ts : List Tree} (h : List.Forall₂ d.graph.Bears d.body ts) :
    d.finish.Bears d.finish.root (.node (.program (blanks ts)) ts) := by
  have hlabel : (Kind.program d.body).label = .program (blanks ts) :=
    congrArg Kind.program (blanks_eq h)
  obtain ⟨i, d', hok, -, hbears⟩ := runs_add h hlabel
  cases hok
  have hlink := sameShape_link
    { nodes := d.nodes.push { kind := .program d.body }, root := d.nodes.size }
  have hroot : d.finish.root = d.nodes.size := hlink.root
  rw [hroot]
  exact hbears.mono ⟨hlink.size.ge, fun i _ => hlink.kind i⟩

theorem ofStatements_cases (body : List Node) :
    match firstFault? (placesOf .statement body) with
    | some e => ofStatements body = .error e
    | none => ∃ g, ofStatements body = .ok g ∧ g.tree = (Node.program body).tree := by
  have hrun := runs_statements body {}
  have hof : ∀ r, statements body {} = r →
      ofStatements body = r >>= fun q => pure { q.2 with body := q.1 }.finish :=
    fun r hr => hr ▸ rfl
  cases hfault : firstFault? (placesOf .statement body) with
  | some e =>
    rw [hfault] at hrun
    exact (hof _ hrun).trans rfl
  | none =>
    rw [hfault] at hrun
    obtain ⟨is, d, hok, -, hbears⟩ := hrun
    have hsown := sows_statements [] body {} (.empty rfl) is d hok
    exact ⟨_, (hof _ hok).trans rfl,
      (Draft.unshared_finish (d := { d with body := is }) hsown).tree_eq (bears_finish hbears)⟩

/-- **A document gives a program exactly when every place is proper. The program is a tree with what
the document says, in the order of fields, and otherwise the error is that of the first place that
something is wrong with.** -/
theorem ofJson_faithful {v : Json} {body : List Node} (hv : firstUnsupported? v = none)
    (hbody : decode? v = some (.program body)) :
    ((∃ g, ofJson v = .ok g) ↔ ∀ q ∈ placesOf .statement body, q.Proper) ∧
      (∀ g, ofJson v = .ok g → g.IsTree ∧ g.tree = (Node.program body).tree) ∧
      ∀ e, ofJson v = .error e → firstFault? (placesOf .statement body) = some e := by
  have hof : ofJson v = ofStatements body := by
    unfold ofJson
    rw [hv, hbody]
  have hcases := ofStatements_cases body
  rw [← hof] at hcases
  rw [← firstFault?_eq_none]
  cases hfault : firstFault? (placesOf .statement body) with
  | some e =>
    rw [hfault] at hcases
    refine ⟨⟨?_, nofun⟩, ?_, ?_⟩
    · rintro ⟨g, hg⟩
      exact nomatch hcases.symm.trans hg
    · intro g hg
      exact nomatch hcases.symm.trans hg
    · intro e' he'
      exact congrArg some (Except.error.inj (hcases.symm.trans he'))
  | none =>
    rw [hfault] at hcases
    obtain ⟨g, hg, htree⟩ := hcases
    refine ⟨⟨fun _ => rfl, fun _ => ⟨g, hg⟩⟩, ?_, ?_⟩
    · intro g' hg'
      obtain rfl := Except.ok.inj (hg.symm.trans hg')
      exact ⟨isTree_ofJson hg, htree⟩
    · intro e he
      exact nomatch hg.symm.trans he

/-- The document of `for (; ; a && true) ; ;`. -/
def idleLoop : Json :=
  .obj [("body", .arr [
      .obj [("body", .obj [("type", .str "EmptyStatement")]), ("type", .str "ForStatement"),
        ("update", .obj [("left", .obj [("name", .str "a"), ("type", .str "Identifier")]),
          ("operator", .str "&&"),
          ("right", .obj [("type", .str "Literal"), ("value", .bool true)]),
          ("type", .str "LogicalExpression")])],
      .obj [("type", .str "EmptyStatement")]]),
    ("type", .str "Program")]

/-- The document of `"a" ** "b"`. -/
def power : Json :=
  .obj [("body", .arr [.obj [("expression",
      .obj [("left", .obj [("type", .str "Literal"), ("value", .str "a")]), ("operator", .str "**"),
        ("right", .obj [("type", .str "Literal"), ("value", .str "b")]),
        ("type", .str "BinaryExpression")]),
      ("type", .str "ExpressionStatement")]]),
    ("type", .str "Program")]

/-- The empty statement that is a body becomes a block and the other one is left out. An operator is
refused before its operands. -/
theorem ofJson_faithful_idleLoop :
    (firstUnsupported? idleLoop = none ∧ ∃ g, ofJson idleLoop = .ok g ∧
      g.tree = .node (.program [0]) [.node (.forLoop none none (some 0) 0)
        [.node (.binary .and 0 0) [.node (.ident "a") [], .node (.bool true) []],
          .node (.block []) []]]) ∧
      firstUnsupported? power = none ∧ ofJson power = .error (.unsupportedOperator "**") := by
  have hloop : firstUnsupported? idleLoop = none := rfl
  have hpower : firstUnsupported? power = none := rfl
  have hloopBody : decode? idleLoop = some (.program
      [.forStatement none none (some (.logicalExpression "&&" (.identifier "a")
        (.literal (.bool true) none))) .emptyStatement, .emptyStatement]) := rfl
  have hpowerBody : decode? power = some (.program
      [.expressionStatement (.binaryExpression "**" (.literal (.other "\"a\"") none)
        (.literal (.other "\"b\"") none))]) := rfl
  obtain ⟨haccepted, htree, -⟩ := ofJson_faithful hloop hloopBody
  obtain ⟨hrefused, -, herror⟩ := ofJson_faithful hpower hpowerBody
  refine ⟨⟨hloop, ?_⟩, hpower, ?_⟩
  · obtain ⟨g, hg⟩ := haccepted.mpr (firstFault?_eq_none.mp rfl)
    exact ⟨g, hg, (htree g hg).2⟩
  · cases hread : ofJson power with
    | ok g => cases firstFault?_eq_none.mpr (hrefused.mp ⟨g, hread⟩)
    | error e => exact congrArg Except.error (Option.some.inj (herror e hread)).symm

end Estree

end ShaderScript
