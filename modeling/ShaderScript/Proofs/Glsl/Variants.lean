import ShaderScript.Proofs.Renumber.Text

/-!
# Programs with another text in one place

To see where the text of a node goes, put another text in its place. Nothing around a call, an
assignment or an increment looks at more of it than its text, so the rest of the program is written
as before.

* `Kind.isEffect`: the nodes that do something apart from giving a value.
* `Variant`: a graph with another text in place of such a node.
* `Variant.kinds`: how the kinds of a node in the two graphs compare.
* `Variant.conditionText`, `Variant.nestedLines`, …: what is written around a node is the same.
-/

namespace ShaderScript

open Graph

/-- Whether a node does something apart from giving a value. -/
def Kind.isEffect : Kind → Bool
  | .call .. | .assign .. | .update .. => true
  | _ => false

theorem Kind.isStatement_of_isEffect {k : Kind} (h : k.isEffect = true) :
    Glsl.isStatement k = false := by
  cases k <;> first | rfl | cases h

/-! ## Another text in place of a node -/

/-- The graph `x` is `g`, but for a text that may stand in place of `i`. -/
structure Variant (g : Graph) (i : Id) (x : Graph) : Prop where
  size : x.size = g.size
  kind : ∀ j, j ≠ i → x.kind j = g.kind j
  effect : (g.kind i).isEffect = true
  site : x.kind i = g.kind i ∨ ∃ s, x.kind i = .raw s
  ty? : ∀ j, x.ty? j = g.ty? j
  out : ∀ j, (x.node j).out = (g.node j).out
  returnsValue : ∀ f, x.returnsValue f = g.returnsValue f

namespace Variant

open Glsl

variable {g x : Graph} {i : Id}

theorem refl (hi : (g.kind i).isEffect = true) : Variant g i g :=
  ⟨rfl, fun _ _ => rfl, hi, .inl rfl, fun _ => rfl, fun _ => rfl, fun _ => rfl⟩

theorem replace (hi : (g.kind i).isEffect = true) (hlt : i < g.size) {s : String}
    (hret : ∀ f, (g.replace i (.raw s)).returnsValue f = g.returnsValue f) :
    Variant g i (g.replace i (.raw s)) where
  size := size_modify _ _ _
  kind _ hj := kind_replace_of_ne g _ (Ne.symm hj)
  effect := hi
  site := .inr ⟨s, kind_replace_self g _ hlt⟩
  ty? j := node_modify_congr g ({ · with kind := .raw s }) Node.ty (fun _ => rfl) i j
  out j := node_modify_congr g ({ · with kind := .raw s }) Node.out (fun _ => rfl) i j
  returnsValue := hret

variable (h : Variant g i x)

include h

/-- What holds of every kind twice, and of a text beside an effect, holds of the kinds of a node in
the two graphs. -/
@[elab_as_elim]
theorem kinds {motive : Kind → Kind → Prop} (j : Id) (same : ∀ k, motive k k)
    (call : ∀ s callee args, motive (.raw s) (.call callee args))
    (assign : ∀ s op left right, motive (.raw s) (.assign op left right))
    (update : ∀ s op leading argument, motive (.raw s) (.update op leading argument)) :
    motive (x.kind j) (g.kind j) := by
  by_cases hj : j = i
  · subst hj
    have heffect := h.effect
    obtain hsite | ⟨s, hsite⟩ := h.site
    · rw [hsite]
      exact same _
    · rw [hsite]
      cases hk : g.kind j with
      | call => exact call s _ _
      | assign => exact assign s _ _ _
      | update => exact update s _ _ _
      | _ =>
        rw [hk] at heffect
        cases heffect
  · rw [h.kind j hj]
    exact same _

/-! What is written around a node depends on what the node is, but texts and effects look alike. -/

theorem isStatement (j : Id) : Glsl.isStatement (x.kind j) = Glsl.isStatement (g.kind j) :=
  h.kinds j (fun _ => rfl) (fun _ _ _ => rfl) (fun _ _ _ _ => rfl) fun _ _ _ _ => rfl

theorem literalIndex? (j : Id) : x.literalIndex? j = g.literalIndex? j := by
  unfold Graph.literalIndex?
  exact h.kinds j (fun _ => rfl) (fun _ _ _ => rfl) (fun _ _ _ _ => rfl) fun _ _ _ _ => rfl

theorem declaredType (j : Id) : Glsl.declaredType x j = Glsl.declaredType g j := by
  unfold Glsl.declaredType
  rw [h.ty?]

theorem declaratorText (expr : Id → String) :
    Glsl.declaratorText x expr = Glsl.declaratorText g expr := by
  funext j
  unfold Glsl.declaratorText
  simp only [h.declaredType]
  exact h.kinds j (fun _ => rfl) (fun _ _ _ => rfl) (fun _ _ _ _ => rfl) fun _ _ _ _ => rfl

theorem initText (expr : Id → String) (o : Option Id) :
    Glsl.initText x expr o = Glsl.initText g expr o := by
  cases o with
  | none => rfl
  | some j =>
    simp only [Glsl.initText, h.declaratorText]
    exact h.kinds j (fun _ => rfl) (fun _ _ _ => rfl) (fun _ _ _ _ => rfl) fun _ _ _ _ => rfl

theorem conditionText (expr : Id → String) (j : Id) :
    Glsl.conditionText x expr j = Glsl.conditionText g expr j := by
  unfold Glsl.conditionText
  exact h.kinds j (fun _ => rfl) (fun _ _ _ => rfl) (fun _ _ _ _ => rfl) fun _ _ _ _ => rfl

theorem paramText (expr : Id → String) : Glsl.paramText x expr = Glsl.paramText g expr := by
  funext j
  unfold Glsl.paramText
  rw [h.out, h.declaredType]

theorem nestedLines (indent : String) (lines : Id → List String) (j : Id) :
    Glsl.nestedLines x indent lines j = Glsl.nestedLines g indent lines j := by
  unfold Glsl.nestedLines
  exact h.kinds j (fun _ => rfl) (fun _ _ _ => rfl) (fun _ _ _ _ => rfl) fun _ _ _ _ => rfl

theorem elseLines (indent : String) (lines : Id → List String) (o : Option Id) :
    Glsl.elseLines x indent lines o = Glsl.elseLines g indent lines o := by
  cases o with
  | none => rfl
  | some j =>
    simp only [Glsl.elseLines, h.nestedLines]
    exact h.kinds j (fun _ => rfl) (fun _ _ _ => rfl) (fun _ _ _ _ => rfl) fun _ _ _ _ => rfl

theorem exprStmtLines (expr : Id → String) (j : Id) :
    Glsl.exprStmtLines x expr j = Glsl.exprStmtLines g expr j := by
  unfold Glsl.exprStmtLines
  exact h.kinds j (fun _ => rfl) (fun _ _ _ => rfl) (fun _ _ _ _ => rfl) fun _ _ _ _ => rfl

theorem functionText (indent : String) (expr : Id → String) (lines : Id → List String)
    (valued : Bool) (f : Id) : Glsl.functionText x indent expr lines valued f =
      Glsl.functionText g indent expr lines valued f := by
  unfold Glsl.functionText
  simp only [h.returnsValue, h.declaredType, h.paramText, h.nestedLines]
  exact h.kinds f (fun _ => rfl) (fun _ _ _ => rfl) (fun _ _ _ _ => rfl) fun _ _ _ _ => rfl

end Variant

end ShaderScript
