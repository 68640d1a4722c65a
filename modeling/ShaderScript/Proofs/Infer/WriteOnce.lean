import ShaderScript.Proofs.Infer.Again
import ShaderScript.Proofs.Infer.Uniform

/-!
# Facts are written once

Inference may give a type to a node that has none and may raise the position noted at a node. All
else about a node stays, and so does a type once it is there. The occurrences of a binding get their
types together. Nothing of this depends on how inference ends.

* `Node.WrittenOnce`: what a node may become, with one lemma for each of the two ways to change it.
* `Graph.WrittenOnce`: no node becomes anything else, and none is added.
* `Graph.BindingsAgree`: all occurrences of a binding have one type, given in one way.
* `infer_typed`: what the evidence says about types is so where inference ends well.
* **`infer_writes_once`**: inference writes facts once, and to whole bindings.
-/

namespace ShaderScript

/-! ## One node -/

/-- The node `n` may have become `n'`: a type is given at most once, and a position only grows. -/
structure Node.WrittenOnce (n n' : Node) : Prop where
  kind : n'.kind = n.kind
  parent : n'.parent = n.parent
  hint : n'.hint = n.hint
  out : n'.out = n.out
  typed : n.ty ≠ none → n'.ty = n.ty ∧ n'.guessed = n.guessed
  noted : ∀ k, n.topIndex = some k → ∃ m, k ≤ m ∧ n'.topIndex = some m

namespace Node.WrittenOnce

variable {n n' n'' : Node}

theorem refl (n : Node) : WrittenOnce n n :=
  ⟨rfl, rfl, rfl, rfl, fun _ => ⟨rfl, rfl⟩, fun k hk => ⟨k, le_rfl, hk⟩⟩

theorem trans (h : WrittenOnce n n') (h' : WrittenOnce n' n'') : WrittenOnce n n'' where
  kind := h'.kind.trans h.kind
  parent := h'.parent.trans h.parent
  hint := h'.hint.trans h.hint
  out := h'.out.trans h.out
  typed ht := by
    obtain ⟨hty, hguessed⟩ := h.typed ht
    obtain ⟨hty', hguessed'⟩ := h'.typed (by rwa [hty])
    exact ⟨hty'.trans hty, hguessed'.trans hguessed⟩
  noted k hk := by
    obtain ⟨m, hkm, hm⟩ := h.noted k hk
    obtain ⟨l, hml, hl⟩ := h'.noted m hm
    exact ⟨l, hkm.trans hml, hl⟩

theorem give (hn : n.ty = none) (t : Ty) (b : Bool) :
    WrittenOnce n { n with ty := some t, guessed := b } :=
  ⟨rfl, rfl, rfl, rfl, fun ht => absurd hn ht, fun k hk => ⟨k, le_rfl, hk⟩⟩

theorem observe (n : Node) (k : Nat) :
    WrittenOnce n { n with topIndex := some (max (n.topIndex.getD k) k) } := by
  refine ⟨rfl, rfl, rfl, rfl, fun _ => ⟨rfl, rfl⟩, fun m hm => ⟨max m k, le_max_left m k, ?_⟩⟩
  simp [hm]

end Node.WrittenOnce

/-! ## All nodes -/

namespace Graph

/-- The nodes of `x` are those of `g`, with facts that were written once. -/
structure WrittenOnce (g x : Graph) : Prop where
  root : x.root = g.root
  size : x.size = g.size
  node : ∀ i, (g.node i).WrittenOnce (x.node i)

namespace WrittenOnce

variable {g x y : Graph}

theorem refl (g : Graph) : WrittenOnce g g := ⟨rfl, rfl, fun _ => .refl _⟩

theorem trans (h : WrittenOnce g x) (h' : WrittenOnce x y) : WrittenOnce g y :=
  ⟨h'.root.trans h.root, h'.size.trans h.size, fun i => (h.node i).trans (h'.node i)⟩

theorem modify {i : Id} {f : Node → Node} (hf : (g.node i).WrittenOnce (f (g.node i))) :
    WrittenOnce g (g.modify i f) := by
  refine ⟨rfl, size_modify _ _ _, fun j => ?_⟩
  by_cases hij : i = j
  · subst hij
    by_cases hi : i < g.size
    · rwa [node_modify_self _ _ hi]
    · rw [node_modify_of_size_le _ (not_lt.mp hi)]
      exact .refl _
  · rw [node_modify_of_ne _ _ hij]
    exact .refl _

end WrittenOnce

/-- All occurrences of each binding have the same type or none, and for all of them it is a guess
or for none. -/
def BindingsAgree (g : Graph) : Prop :=
  ∀ b ∈ (Scopes.resolve g).bindings, ∀ i ∈ b.occurrences, ∀ j ∈ b.occurrences,
    g.ty? i = g.ty? j ∧ (g.node i).guessed = (g.node j).guessed

instance (g : Graph) : Decidable g.BindingsAgree := by unfold BindingsAgree; infer_instance

end Graph

/-! ## Inference -/

namespace Infer

open Solver

theorem invariant_writtenOnce (g : Graph) (c : Context) : Invariant c g.WrittenOnce where
  assign i t b s hs := by
    refine leaves_forM (fun j _ s hs => ?_) hs
    unfold assignNode
    refine leaves_get_bind ?_
    cases hj : s.graph.ty? j with
    | none => exact leaves_set (hs.trans (.modify (.give hj t b)))
    | some found =>
      dsimp only
      split_ifs
      · exact leaves_pure hs
      · exact leaves_throw hs
  observe i k s hs := hs.trans (.modify (.observe _ k))

theorem uniform_iff_agree {g x : Graph} {calls : CallTable} : Uniform (.of g calls) x ↔
    ∀ b ∈ (Scopes.resolve g).bindings, ∀ i ∈ b.occurrences, ∀ j ∈ b.occurrences,
      x.ty? i = x.ty? j ∧ (x.node i).guessed = (x.node j).guessed := by
  constructor
  · intro h b hb i hi j hj
    exact h j i (Scopes.mem_occurrences_of_binding hb hj hi)
  · intro h i j hj
    rw [Context.of_scopes] at hj
    unfold Scopes.occurrences at hj
    cases hb : (Scopes.resolve g).bindingOf? i with
    | none =>
      rw [hb] at hj
      obtain rfl := List.mem_singleton.mp hj
      exact ⟨rfl, rfl⟩
    | some b =>
      rw [hb] at hj
      obtain ⟨hmem, hi⟩ := Scopes.bindingOf?_eq_some hb
      exact h b hmem j hj i hi

/-! ## Evidence -/

theorem Solver.Leaves.ends {α : Type} {m : Solver α} {s : State} {J : Graph → Prop}
    (h : Leaves m s J) : Ends m s (fun _ s' => J s'.graph) fun _ => True := by
  unfold Leaves at h
  unfold Ends
  rcases hr : m.run.run s with ⟨_ | a, s'⟩
  · trivial
  · rw [hr] at h
    exact h

/-- What a piece of evidence says about a type is so. -/
def Evidence.Typed (x : Graph) : Evidence → Prop
  | .hasType i t => i < x.size → x.ty? i = some t
  | _ => True

theorem Evidence.Typed.writtenOnce {x y : Graph} {e : Evidence} (he : e.Typed x)
    (h : x.WrittenOnce y) : e.Typed y := by
  cases e with
  | hasType i t =>
    intro hi
    have ht : (x.node i).ty = some t := he (h.size ▸ hi)
    exact ((h.node i).typed (ht ▸ Option.some_ne_none t)).1.trans ht
  | indexedAt | notAVector | wrongArity => trivial

theorem ends_assign_typed (g : Graph) (calls : CallTable) (i : Id) (t : Ty) (b : Bool) (s : State) :
    Ends (assign (.of g calls) i t b) s (fun _ s' => s.graph.WrittenOnce s'.graph ∧
      (Evidence.hasType i t).Typed s'.graph) fun _ => True := by
  unfold assign
  refine (ends_forM (I := fun _ => True) (R := fun s s' => s.graph.WrittenOnce s'.graph)
    (P := fun j s' => (Evidence.hasType j t).Typed s'.graph) (fun s => .refl s.graph)
    (fun _ _ _ => .trans) (fun _ _ _ h he => he.writtenOnce h) (fun j _ s _ => ?_) trivial).mono
      fun _ s' h => ⟨h.2.1, h.2.2 i (Scopes.self_mem_occurrences i)⟩
  unfold assignNode
  refine ends_get_bind ?_
  cases hj : s.graph.ty? j with
  | none =>
    refine ends_set ⟨trivial, .modify (.give hj t b), fun hlt => State.ty?_give_self ?_⟩
    exact (Graph.size_modify _ _ _) ▸ hlt
  | some found =>
    dsimp only
    split_ifs with he
    · exact ends_pure ⟨trivial, .refl _, fun _ => he ▸ hj⟩
    · exact ends_throw trivial

theorem ends_take_typed (g : Graph) (calls : CallTable) (e : Evidence) (s : State) :
    Ends (e.take (.of g calls)) s (fun _ s' => s.graph.WrittenOnce s'.graph ∧ e.Typed s'.graph)
      fun _ => True := by
  cases e with
  | hasType i t => exact ends_assign_typed g calls i t false s
  | indexedAt i k => exact ends_modify ⟨.modify (.observe _ k), trivial⟩
  | notAVector i length => exact ends_get_bind (ends_throw trivial)
  | wrongArity k found => exact ends_throw trivial

theorem ends_solve_typed (g : Graph) (calls : CallTable) (s : State) :
    Ends (solve (.of g calls)) s
      (fun _ s' => ∀ e ∈ (Context.of g calls).evidence, e.Typed s'.graph) fun _ => True := by
  unfold solve seed
  refine (ends_forM (I := fun _ => True) (R := fun s s' => s.graph.WrittenOnce s'.graph)
    (P := fun e s' => e.Typed s'.graph) (fun s => .refl s.graph) (fun _ _ _ => .trans)
    (fun _ _ _ h he => he.writtenOnce h)
    (fun e _ s _ => (ends_take_typed g calls e s).mono fun _ _ h => ⟨trivial, h⟩) trivial).bind ?_
  rintro _ s₁ ⟨-, -, htyped⟩
  refine ((invariant_writtenOnce s₁.graph (.of g calls)).settle (.refl _) _).ends.mono ?_
  exact fun _ s₂ h e he => (htyped e he).writtenOnce h

end Infer

open Infer

/-- **Where inference ends well, all evidence about types is so.** -/
theorem infer_typed {g : Graph} {calls : CallTable} (hok : (infer g calls).failure = none) :
    ∀ e ∈ (Context.of g calls).evidence, e.Typed (infer g calls).graph := by
  have hends := ends_solve_typed g calls { graph := g }
  unfold infer at hok ⊢
  unfold Solver.Ends at hends
  rcases hr : (solve (.of g calls)).run.run { graph := g } with ⟨err | _, s⟩
  · rw [hr] at hok
    cases hok
  · rw [hr] at hends
    exact hends

/-- **Inference writes facts once, and to whole bindings**, however it ends. No node is added or
becomes another, a type that is there stays, and positions only grow. Where the occurrences of each
binding agreed before, they agree afterwards. -/
theorem infer_writes_once (g : Graph) (calls : CallTable) :
    g.WrittenOnce (infer g calls).graph ∧
    (g.BindingsAgree → (infer g calls).graph.BindingsAgree) := by
  refine ⟨(invariant_writtenOnce g (.of g calls)).infer (.refl g), fun h => ?_⟩
  unfold Graph.BindingsAgree
  rw [(changed_infer g calls).scopes_eq]
  have huniform : Uniform (.of g calls) g := uniform_iff_agree.mpr h
  exact uniform_iff_agree.mp (uniform_infer huniform)

/-- The program `a = [1, 1, 1]; a = [1, 1]; b = a;` with a type for `b` from the start. -/
def widthsApart : Graph :=
  let g := Build.finish do
    let one := Build.num "1"
    let triple ← Build.array [← one, ← one, ← one]
    Build.statement (← Build.exprStmt (← Build.assign .set (← Build.ident "a") triple))
    let pair ← Build.array [← one, ← one]
    Build.statement (← Build.exprStmt (← Build.assign .set (← Build.ident "a") pair))
    let b ← Build.ident "b"
    Build.statement (← Build.exprStmt (← Build.assign .set b (← Build.ident "a")))
  g.setTy 13 (some .vec3)

/-- The two widths of `a` stop inference, yet all three occurrences have got the same one, and `b`
has kept its type. -/
theorem infer_writes_once_widthsApart :
    widthsApart.BindingsAgree ∧
    (infer widthsApart (CallTable.resolve widthsApart)).failure ≠ none ∧
    widthsApart.WrittenOnce (infer widthsApart (CallTable.resolve widthsApart)).graph ∧
    (infer widthsApart (CallTable.resolve widthsApart)).graph.BindingsAgree ∧
    [4, 10, 14, 13].map (infer widthsApart (CallTable.resolve widthsApart)).graph.ty? =
      [some .vec2, some .vec2, some .vec2, some .vec3] := by
  have hagree : widthsApart.BindingsAgree := by decide +kernel
  obtain ⟨honce, hkeeps⟩ := infer_writes_once widthsApart (CallTable.resolve widthsApart)
  exact ⟨hagree, by decide +kernel, honce, hkeeps hagree, by decide +kernel⟩

end ShaderScript
