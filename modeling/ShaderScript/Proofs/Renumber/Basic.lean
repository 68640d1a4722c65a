import ShaderScript.Proofs.Graph.Growth

/-!
# Copies under other numbers

The numbers of nodes mean nothing. A graph that holds a copy of another one under other numbers
answers every question about the copy as the other answers it, and the same edit at corresponding
nodes gives a copy again.

* `Kind.map`: a kind under other numbers.
* `Graph.Copy`: a graph holds a copy of another under a numbering. New nodes of both correspond, and
  parents do if they are `linked`.
* `Graph.Copy.kind`, `Graph.Copy.identName?`, `Graph.Copy.functions`, …: one lemma for each question
  that reads a few nodes.
* **`Graph.Copy.modify`**, **`Graph.Copy.add`**: the two edits that all others are made of.
-/

namespace ShaderScript

/-! ## Kinds under other numbers -/

namespace Kind

/-- A kind with other numbers for its children. -/
def map (f : Id → Id) : Kind → Kind
  | program body => program (body.map f)
  | function name params body => function (f name) (params.map f) (f body)
  | varDecl declarators => varDecl (declarators.map f)
  | declarator name init => declarator (f name) (init.map f)
  | block body => block (body.map f)
  | exprStmt expr => exprStmt (f expr)
  | ifElse test consequent alternate => ifElse (f test) (f consequent) (alternate.map f)
  | forLoop init test step body => forLoop (init.map f) (test.map f) (step.map f) (f body)
  | ret argument => ret (argument.map f)
  | discard => discard
  | conditional test consequent alternate => conditional (f test) (f consequent) (f alternate)
  | binary op left right => binary op (f left) (f right)
  | assign op left right => assign op (f left) (f right)
  | unary op argument => unary op (f argument)
  | update op leading argument => update op leading (f argument)
  | call callee args => call (f callee) (args.map f)
  | field object property => field (f object) (f property)
  | index object property => index (f object) (f property)
  | array elements => array (elements.map f)
  | ident name => ident name
  | this => this
  | number text => number text
  | bool value => bool value
  | sequence exprs => sequence (exprs.map f)
  | raw source => raw source

theorem children_map (f : Id → Id) (k : Kind) : (k.map f).children = k.children.map f := by
  cases k <;> simp [map, children, Option.toList_map]

theorem map_map (f h : Id → Id) (k : Kind) : (k.map f).map h = k.map (h ∘ f) := by
  cases k <;> simp [map]

theorem map_congr {f h : Id → Id} {k : Kind} (hk : ∀ c ∈ k.children, f c = h c) :
    k.map f = k.map h := by
  have option : ∀ {o : Option Id}, (∀ c, o = some c → f c = h c) → o.map f = o.map h := by
    intro o ho
    cases o with
    | none => rfl
    | some c => exact congrArg some (ho c rfl)
  cases k
  case declarator name init =>
    simp only [children, List.mem_cons, Option.mem_toList] at hk
    rw [map, map, hk name (.inl rfl), option fun c hc => hk c (.inr hc)]
  case ifElse test consequent alternate =>
    simp only [children, List.mem_cons, Option.mem_toList] at hk
    rw [map, map, hk test (.inl rfl), hk consequent (.inr (.inl rfl)),
      option fun c hc => hk c (.inr (.inr hc))]
  case forLoop init test step body =>
    simp only [children, List.mem_append, List.mem_cons, Option.mem_toList] at hk
    rw [map, map, option fun c hc => hk c (.inl hc), option fun c hc => hk c (.inr (.inl hc)),
      option fun c hc => hk c (.inr (.inr (.inl hc))), hk body (.inr (.inr (.inr (.inl rfl))))]
  case ret argument =>
    simp only [children, Option.mem_toList] at hk
    rw [map, map, option hk]
  all_goals simp_all [children, map]

end Kind

/-! ## Copies -/

/-- The second node is the first under other numbers: facts are the same, and parents correspond if
they are `linked`. -/
structure Node.Copy (linked : Prop) (f : Id → Id) (n m : Node) : Prop where
  kind : m.kind = n.kind.map f
  parent : linked → m.parent = n.parent.map f
  ty : m.ty = n.ty
  guessed : m.guessed = n.guessed
  topIndex : m.topIndex = n.topIndex
  hint : m.hint = n.hint
  out : m.out = n.out

theorem Node.Copy.refl {linked : Prop} (n : Node) : Node.Copy linked id n n := by
  refine ⟨?_, fun _ => (Option.map_id_fun ▸ rfl), rfl, rfl, rfl, rfl, rfl⟩
  cases hk : n.kind <;> simp [Kind.map]

theorem Node.Copy.new {linked : Prop} {f : Id → Id} (k : Kind) (t : Option Ty) :
    Node.Copy linked f { kind := k, ty := t } { kind := k.map f, ty := t } :=
  ⟨rfl, fun _ => rfl, rfl, rfl, rfl, rfl, rfl⟩

namespace Graph

/-- The graph `g` holds a copy of all of `k`, node `i` under the number `f i`, and the next numbers
of both correspond. -/
structure Copy (linked : Prop) (f : Id → Id) (k g : Graph) : Prop where
  inj : Function.Injective f
  root : g.root = f k.root
  fresh : ∀ n, f (k.size + n) = g.size + n
  lt : ∀ i, i < k.size → f i < g.size
  node : ∀ i, (k.node i).Copy linked f (g.node (f i))

namespace Copy

variable {linked : Prop} {f : Id → Id} {k g : Graph}

theorem refl (g : Graph) : Copy linked id g g :=
  ⟨Function.injective_id, rfl, fun _ => rfl, fun _ hi => hi, fun i => .refl (g.node i)⟩

section Questions

variable (r : Copy linked f k g)

include r

theorem eq_iff {i j : Id} : f i = f j ↔ i = j := r.inj.eq_iff

theorem le {i : Id} (hi : k.size ≤ i) : g.size ≤ f i := by
  obtain ⟨n, rfl⟩ := Nat.exists_eq_add_of_le hi
  rw [r.fresh]
  exact Nat.le_add_right _ _

theorem size : f k.size = g.size := r.fresh 0

theorem size_le : k.size ≤ g.size := by
  have hcard := Finset.card_le_card_of_injOn (s := Finset.range k.size) (t := Finset.range g.size) f
    (fun i hi => Finset.mem_coe.mpr (Finset.mem_range.mpr
      (r.lt i (Finset.mem_range.mp (Finset.mem_coe.mp hi))))) r.inj.injOn
  rwa [Finset.card_range, Finset.card_range] at hcard

theorem kind (i : Id) : g.kind (f i) = (k.kind i).map f := (r.node i).kind

theorem ty? (i : Id) : g.ty? (f i) = k.ty? i := (r.node i).ty

theorem children (i : Id) : g.children (f i) = (k.children i).map f := by
  unfold Graph.children
  rw [r.kind, Kind.children_map]

theorem identName? (i : Id) : g.identName? (f i) = k.identName? i := by
  unfold Graph.identName?
  rw [r.kind]
  cases k.kind i <;> rfl

theorem isFunction (i : Id) : g.isFunction (f i) = k.isFunction i := by
  unfold Graph.isFunction
  rw [r.kind]
  cases k.kind i <;> rfl

theorem isReturn (i : Id) : g.isReturn (f i) = k.isReturn i := by
  unfold Graph.isReturn
  rw [r.kind]
  cases k.kind i <;> rfl

theorem isAssignable (i : Id) : g.isAssignable (f i) = k.isAssignable i := by
  unfold Graph.isAssignable
  rw [r.kind]
  cases k.kind i <;> rfl

theorem returned? (i : Id) : g.returned? (f i) = (k.returned? i).map f := by
  unfold Graph.returned?
  rw [r.kind]
  cases k.kind i <;> rfl

theorem literalIndex? (i : Id) : g.literalIndex? (f i) = k.literalIndex? i := by
  unfold Graph.literalIndex?
  rw [r.kind]
  cases k.kind i <;> rfl

theorem functionName? (i : Id) : g.functionName? (f i) = k.functionName? i := by
  unfold Graph.functionName?
  rw [r.kind]
  cases k.kind i <;> first | rfl | exact r.identName? _

theorem body : g.body = k.body.map f := by
  unfold Graph.body
  rw [r.root, r.kind]
  cases k.kind k.root <;> rfl

theorem functions : g.functions = k.functions.map f := by
  unfold Graph.functions
  rw [r.body, List.filter_map]
  exact congrArg (List.map f) (congrArg (List.filter · k.body) (funext r.isFunction))

theorem findFunction? (name : String) : g.findFunction? name = (k.findFunction? name).map f := by
  unfold Graph.findFunction?
  rw [r.functions, List.find?_map]
  exact congrArg (Option.map f) (congrArg (List.find? · k.functions)
    (funext fun i => congrArg (· == some name) (r.functionName? i)))

end Questions

/-! ## Edits -/

/-- **The same change at corresponding nodes gives a copy.** -/
theorem modify (r : Copy linked f k g) (i : Id) {u v : Node → Node}
    (huv : ∀ n m, n.Copy linked f m → (u n).Copy linked f (v m)) :
    Copy linked f (k.modify i u) (g.modify (f i) v) := by
  refine ⟨r.inj, r.root, fun n => ?_, fun j hj => ?_, fun j => ?_⟩
  · rw [size_modify, size_modify, r.fresh]
  · rw [size_modify] at hj ⊢
    exact r.lt j hj
  · by_cases hij : i = j
    · subst hij
      by_cases hi : i < k.size
      · rw [node_modify_self _ _ hi, node_modify_self _ _ (r.lt i hi)]
        exact huv _ _ (r.node i)
      · rw [node_modify_of_size_le _ (not_lt.mp hi), node_modify_of_size_le _ (r.le (not_lt.mp hi))]
        exact r.node i
    · rw [node_modify_of_ne _ _ hij, node_modify_of_ne _ _ fun he => hij (r.inj he)]
      exact r.node j

/-- **Corresponding new nodes give a copy.** -/
theorem add (r : Copy linked f k g) {ns ms : List Node}
    (hnew : List.Forall₂ (Node.Copy linked f) ns ms) : Copy linked f (k.add ns) (g.add ms) := by
  have hlen := hnew.length_eq
  refine ⟨r.inj, r.root, fun n => ?_, fun j hj => ?_, fun j => ?_⟩
  · rw [size_add, size_add, ← hlen, Nat.add_assoc, Nat.add_assoc, r.fresh]
  · rw [size_add] at hj ⊢
    rcases Nat.lt_or_ge j k.size with hlt | hge
    · exact Nat.lt_add_right _ (r.lt j hlt)
    · obtain ⟨n, rfl⟩ := Nat.exists_eq_add_of_le hge
      rw [r.fresh, ← hlen]
      exact Nat.add_lt_add_left (Nat.lt_of_add_lt_add_left hj) _
  · rcases Nat.lt_or_ge j k.size with hlt | hge
    · rw [node_add_of_lt _ hlt, node_add_of_lt _ (r.lt j hlt)]
      exact r.node j
    · obtain ⟨n, rfl⟩ := Nat.exists_eq_add_of_le hge
      rw [r.fresh, node_add_new, node_add_new]
      clear hge
      induction hnew generalizing n with
      | nil => exact .new (.program []) none
      | cons hnm _ ih =>
        cases n with
        | zero => exact hnm
        | succ n => exact ih (by simpa using hlen) n

theorem replace (r : Copy linked f k g) (i : Id) (l : Kind) :
    Copy linked f (k.replace i l) (g.replace (f i) (l.map f)) :=
  r.modify i fun _ _ h => { h with kind := rfl }

theorem setParent (r : Copy linked f k g) (i : Id) (p : Option Id) :
    Copy linked f (k.setParent i p) (g.setParent (f i) (p.map f)) :=
  r.modify i fun _ _ h => { h with parent := fun _ => rfl }

theorem rename (r : Copy linked f k g) (i : Id) (name : String) :
    Copy linked f (k.rename i name) (g.rename (f i) name) := by
  unfold Graph.rename
  rw [r.kind]
  cases k.kind i <;> first | exact r | exact r.replace i (.ident name)

theorem alloc (r : Copy linked f k g) (l : Kind) :
    (g.alloc (l.map f)).1 = f (k.alloc l).1 ∧
      Copy linked f (k.alloc l).2 (g.alloc (l.map f)).2 := by
  rw [alloc_eq, alloc_eq]
  exact ⟨r.size.symm, r.add (.cons (.new l none) .nil)⟩

theorem allocTyped (r : Copy linked f k g) (l : Kind) (t : Option Ty) :
    (g.allocTyped (l.map f) t).1 = f (k.allocTyped l t).1 ∧
      Copy linked f (k.allocTyped l t).2 (g.allocTyped (l.map f) t).2 := by
  rw [allocTyped_eq, allocTyped_eq]
  exact ⟨r.size.symm, r.add (.cons (.new l t) .nil)⟩

/-- **A pass over corresponding things gives copies if each step does.** -/
theorem foldl {α β S T : Type} {R : S → T → Prop} {step : S → α → S} {step' : T → β → T}
    (h : α → β) {xs : List α} {s : S} {t : T} (hstart : R s t)
    (hstep : ∀ s t a, R s t → R (step s a) (step' t (h a))) :
    R (xs.foldl step s) ((xs.map h).foldl step' t) := by
  rw [List.foldl_map]
  exact List.foldl_rel hstart fun a _ s t hst => hstep s t a hst

theorem renameAll (r : Copy linked f k g) (is : List Id) (name : String) :
    Copy linked f (k.renameAll is name) (g.renameAll (is.map f) name) :=
  foldl f r fun _ _ i r => r.rename i name

end Copy

end Graph

end ShaderScript
