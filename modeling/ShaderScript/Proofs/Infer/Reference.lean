import Mathlib.Logic.Relation
import Mathlib.Order.Bounds.Basic
import ShaderScript.Infer.Run
import ShaderScript.Proofs.Graph.Tree
import ShaderScript.Proofs.Scope.Bindings

/-!
# The types a program should have

What inference is meant to compute, said without a worklist. The program joins certain nodes, and
all nodes joined in any number of steps form a class that has one type or none. The type of a class
comes from the strongest thing known about any of its nodes.

* `Context.Joined`, `Context.Same`: the nodes that the program joins, directly and in classes.
* `Context.Seed`, `Context.IndexedAt`: what the program says about single nodes.
* `Context.Seeded`, `Context.Indexed`, `Context.classHint?`: what it says about a class.
* **`Context.Reference`**: the type of a node, by evidence, then by the largest literal position,
  then by a hint, then as a number where a type is needed, and otherwise none.
* `Graph.Inferable`: the programs that this reference is about.
-/

namespace ShaderScript

/-- A tree in which no type has been found yet, with functions at the top only and under names of
their own. -/
structure Graph.Inferable (g : Graph) : Prop where
  tree : g.IsTree
  fresh : ∀ i ∈ g.live,
    (g.node i).ty = none ∧ (g.node i).guessed = false ∧ (g.node i).topIndex = none
  top : ∀ i ∈ g.live, g.isFunction i = true → i ∈ g.body
  names : (g.functions.filterMap g.functionName?).Nodup

theorem Graph.inferable_iff (g : Graph) : g.Inferable ↔
    g.IsTree ∧
    (∀ i ∈ g.live,
      (g.node i).ty = none ∧ (g.node i).guessed = false ∧ (g.node i).topIndex = none) ∧
    (∀ i ∈ g.live, g.isFunction i = true → i ∈ g.body) ∧
    (g.functions.filterMap g.functionName?).Nodup :=
  ⟨fun h => ⟨h.tree, h.fresh, h.top, h.names⟩, fun ⟨h₁, h₂, h₃, h₄⟩ => ⟨h₁, h₂, h₃, h₄⟩⟩

instance (g : Graph) : Decidable g.Inferable := decidable_of_iff _ (Graph.inferable_iff g).symm

namespace Infer.Context

variable (c : Context)

/-! ## Classes -/

/-- Two nodes that the program joins directly. -/
inductive Joined : Id → Id → Prop
  /-- The identifiers of one binding. -/
  | binding {b : Binding} {i j : Id} :
      b ∈ c.scopes.bindings → i ∈ b.occurrences → j ∈ b.occurrences → Joined i j
  | callee {i f : Id} {args : List Id} :
      i ∈ c.order → c.graph.kind i = .call f args → Joined i f
  | binaryLeft {i l r : Id} {op : BinaryOp} :
      i ∈ c.order → c.graph.kind i = .binary op l r → Joined i l
  | binaryRight {i l r : Id} {op : BinaryOp} :
      i ∈ c.order → c.graph.kind i = .binary op l r → Joined l r
  | assignLeft {i l r : Id} {op : AssignOp} :
      i ∈ c.order → c.graph.kind i = .assign op l r → Joined i l
  | assignRight {i l r : Id} {op : AssignOp} :
      i ∈ c.order → c.graph.kind i = .assign op l r → Joined l r
  | unary {i a : Id} {op : UnaryOp} :
      i ∈ c.order → c.graph.kind i = .unary op a → Joined i a
  | update {i a : Id} {op : UpdateOp} {leading : Bool} :
      i ∈ c.order → c.graph.kind i = .update op leading a → Joined i a
  | consequent {i t a b : Id} :
      i ∈ c.order → c.graph.kind i = .conditional t a b → Joined i a
  | alternate {i t a b : Id} :
      i ∈ c.order → c.graph.kind i = .conditional t a b → Joined a b
  | declarator {i name init : Id} :
      i ∈ c.order → c.graph.kind i = .declarator name (some init) → Joined name init
  /-- The name of a function and a call of it with as many arguments as it has parameters. -/
  | callSite {f name body call callee : Id} {params args : List Id} {b : Binding} :
      f ∈ c.order → c.graph.kind f = .function name params body →
      call ∈ c.order → c.graph.kind call = .call callee args →
      b ∈ c.scopes.bindings → name ∈ b.occurrences → callee ∈ b.occurrences →
      args.length = params.length → Joined name call
  /-- A parameter and the argument in its place at such a call. -/
  | argument {f name body call callee p a : Id} {params args : List Id} {b : Binding} :
      f ∈ c.order → c.graph.kind f = .function name params body →
      call ∈ c.order → c.graph.kind call = .call callee args →
      b ∈ c.scopes.bindings → name ∈ b.occurrences → callee ∈ b.occurrences →
      args.length = params.length → (p, a) ∈ params.zip args → Joined p a
  /-- The name of a function and a value that a return statement of it gives. -/
  | returned {r value f name body : Id} {params : List Id} :
      r ∈ c.order → c.graph.kind r = .ret (some value) →
      c.graph.enclosingFunction? r = some f → c.graph.kind f = .function name params body →
      Joined name value

/-- Two nodes of one class: the least equivalence that holds of joined nodes. -/
def Same : Id → Id → Prop := Relation.EqvGen c.Joined

variable {c}

theorem Same.refl (i : Id) : c.Same i i := Relation.EqvGen.refl i

theorem Same.symm {i j : Id} (h : c.Same i j) : c.Same j i := Relation.EqvGen.symm i j h

theorem Same.trans {i j k : Id} (h : c.Same i j) (h' : c.Same j k) : c.Same i k :=
  Relation.EqvGen.trans i j k h h'

theorem Joined.same {i j : Id} (h : c.Joined i j) : c.Same i j := Relation.EqvGen.rel i j h

variable (c)

/-! ## What is known about a class -/

/-- A node to which the program itself gives a type. -/
inductive Seed : Id → Ty → Prop
  | array {i : Id} {es : List Id} {t : Ty} :
      i ∈ c.order → c.graph.kind i = .array es → Ty.vec? es.length = some t → Seed i t
  | element {i e : Id} {es : List Id} {t : Ty} :
      i ∈ c.order → c.graph.kind i = .array es → Ty.vec? es.length = some t → e ∈ es →
      Seed e .float
  | call {i callee : Id} {args : List Id} {e : Known.Entry} :
      i ∈ c.order → c.calls.known? i = some e → c.graph.kind i = .call callee args → Seed i e.ret
  | argument {i callee a : Id} {args : List Id} {e : Known.Entry} {t : Ty} :
      i ∈ c.order → c.calls.known? i = some e → c.graph.kind i = .call callee args →
      args.length = e.arity → (a, t) ∈ args.zip e.params → Seed a t
  | access {i object position : Id} :
      i ∈ c.order → c.graph.kind i = .index object position → Seed i .float
  | position {i object position : Id} :
      i ∈ c.order → c.graph.kind i = .index object position → Seed position .int

/-- The node is indexed at a literal position somewhere. -/
def IndexedAt (object : Id) (k : Nat) : Prop :=
  ∃ i ∈ c.order, ∃ position, c.graph.kind i = .index object position ∧
    c.graph.literalIndex? position = some k

/-- The class of a node has a node of this type. -/
def Seeded (i : Id) (t : Ty) : Prop := ∃ j, c.Same i j ∧ c.Seed j t

/-- The class of a node has a node that is indexed at this position. -/
def Indexed (i : Id) (k : Nat) : Prop := ∃ j, c.Same i j ∧ c.IndexedAt j k

open Classical in
/-- The hint of the first node in the class of a node that has one. -/
noncomputable def classHint? (i : Id) : Option Ty :=
  c.order.findSome? fun j => if c.Same i j then (c.graph.node j).hint else none

/-- The type that a node should have. -/
inductive Reference (i : Id) : Option Ty → Prop
  /-- Evidence comes first, and all evidence in a class agrees. -/
  | seeded {t : Ty} : c.Seeded i t → (∀ u, c.Seeded i u → u = t) → Reference i (some t)
  | widened {k : Nat} {t : Ty} : (∀ u, ¬ c.Seeded i u) → IsGreatest {k | c.Indexed i k} k →
      Ty.forIndex? k = some t → Reference i (some t)
  | hinted {t : Ty} : (∀ u, ¬ c.Seeded i u) → (∀ k, ¬ c.Indexed i k) → c.classHint? i = some t →
      Reference i (some t)
  | guessed : (∀ u, ¬ c.Seeded i u) → (∀ k, ¬ c.Indexed i k) → c.classHint? i = none →
      (∃ j, c.Same i j ∧ c.needsType j = true) → Reference i (some .float)
  | undetermined : (∀ u, ¬ c.Seeded i u) → (∀ k, ¬ c.Indexed i k) → c.classHint? i = none →
      (∀ j, c.Same i j → c.needsType j = false) → Reference i none

variable {c}

theorem Seeded.congr {i j : Id} {t : Ty} (h : c.Same i j) (hs : c.Seeded i t) : c.Seeded j t := by
  obtain ⟨k, hk, ht⟩ := hs
  exact ⟨k, h.symm.trans hk, ht⟩

theorem Indexed.congr {i j : Id} {k : Nat} (h : c.Same i j) (hs : c.Indexed i k) :
    c.Indexed j k := by
  obtain ⟨m, hm, hk⟩ := hs
  exact ⟨m, h.symm.trans hm, hk⟩

theorem classHint?_congr {i j : Id} (h : c.Same i j) : c.classHint? i = c.classHint? j := by
  classical
  unfold classHint?
  congr 1
  funext k
  exact if_congr ⟨h.symm.trans, h.trans⟩ rfl rfl

theorem Reference.congr {i j : Id} {t : Option Ty} (h : c.Same i j) (hr : c.Reference i t) :
    c.Reference j t := by
  have noSeed : (∀ u, ¬ c.Seeded i u) → ∀ u, ¬ c.Seeded j u := fun hs u hu =>
    hs u (hu.congr h.symm)
  have noIndex : (∀ k, ¬ c.Indexed i k) → ∀ k, ¬ c.Indexed j k := fun hx k hk =>
    hx k (hk.congr h.symm)
  cases hr with
  | seeded hs hu => exact .seeded (hs.congr h) fun u hju => hu u (hju.congr h.symm)
  | widened hs hk ht =>
    have hset : {k | c.Indexed i k} = {k | c.Indexed j k} :=
      Set.ext fun k => ⟨fun hk => hk.congr h, fun hk => hk.congr h.symm⟩
    exact .widened (noSeed hs) (hset ▸ hk) ht
  | hinted hs hx ht => exact .hinted (noSeed hs) (noIndex hx) (classHint?_congr h ▸ ht)
  | guessed hs hx hh hn =>
    obtain ⟨k, hk, hkn⟩ := hn
    exact .guessed (noSeed hs) (noIndex hx) (classHint?_congr h ▸ hh) ⟨k, h.symm.trans hk, hkn⟩
  | undetermined hs hx hh hn =>
    exact .undetermined (noSeed hs) (noIndex hx) (classHint?_congr h ▸ hh) fun k hk =>
      hn k (h.trans hk)

theorem Reference.unique {i : Id} {t u : Option Ty} (ht : c.Reference i t)
    (hu : c.Reference i u) : t = u := by
  cases ht with
  | seeded hs hall =>
    cases hu with
    | seeded hs' _ => rw [hall _ hs']
    | widened hn _ _ | hinted hn _ _ | guessed hn _ _ _ | undetermined hn _ _ _ =>
      exact absurd hs (hn _)
  | widened hn hk ht =>
    cases hu with
    | seeded hs' _ => exact absurd hs' (hn _)
    | widened _ hk' ht' => rw [← ht, ← ht', hk.unique hk']
    | hinted _ hx _ | guessed _ hx _ _ | undetermined _ hx _ _ => exact absurd hk.1 (hx _)
  | hinted hn hx ht =>
    cases hu with
    | seeded hs' _ => exact absurd hs' (hn _)
    | widened _ hk' _ => exact absurd hk'.1 (hx _)
    | hinted _ _ ht' => rw [← ht, ht']
    | guessed _ _ hh _ | undetermined _ _ hh _ => rw [hh] at ht; cases ht
  | guessed hn hx hh hneed =>
    cases hu with
    | seeded hs' _ => exact absurd hs' (hn _)
    | widened _ hk' _ => exact absurd hk'.1 (hx _)
    | hinted _ _ ht' => rw [hh] at ht'; cases ht'
    | guessed => rfl
    | undetermined _ _ _ hnone =>
      obtain ⟨j, hj, hjn⟩ := hneed
      rw [hnone j hj] at hjn
      cases hjn
  | undetermined hn hx hh hnone =>
    cases hu with
    | seeded hs' _ => exact absurd hs' (hn _)
    | widened _ hk' _ => exact absurd hk'.1 (hx _)
    | hinted _ _ ht' => rw [hh] at ht'; cases ht'
    | guessed _ _ _ hneed =>
      obtain ⟨j, hj, hjn⟩ := hneed
      rw [hnone j hj] at hjn
      cases hjn
    | undetermined => rfl

end Infer.Context

end ShaderScript
