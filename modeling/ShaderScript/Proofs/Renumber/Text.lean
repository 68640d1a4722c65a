import ShaderScript.Glsl.Text
import ShaderScript.Proofs.Renumber.Walk

/-!
# The text of a copy

Texts show names, types and spellings, and no numbers.

* `Glsl.Agree`: two printers give the same texts at and below corresponding nodes.
* `Graph.Copy.exprStep`, `Graph.Copy.linesStep`: what agrees on the children of a node agrees on the
  node.
* **`Graph.Copy.text`**: the texts of corresponding nodes are the same, whatever is left of the
  depth.
-/

namespace ShaderScript

open Graph

namespace Glsl

/-- Whether a node is written in lines rather than as one text. -/
def isStatement : Kind → Bool
  | .program _ | .function .. | .varDecl _ | .declarator .. | .block _ | .exprStmt _ | .ifElse ..
  | .forLoop .. | .ret _ | .discard => true
  | _ => false

theorem isStatement_map (f : Id → Id) (k : Kind) : isStatement (k.map f) = isStatement k := by
  cases k <;> rfl

theorem exprAt_of_statement {g : Graph} (indent : String) (n : Nat) {i : Id}
    (h : isStatement (g.kind i) = true) :
    exprAt g indent (n + 1) i = "\n".intercalate (linesAt g indent n i) := by
  unfold exprAt
  cases hk : g.kind i <;> first | rfl | (rw [hk] at h; cases h)

theorem linesAt_of_expr {g : Graph} (indent : String) (n : Nat) {i : Id}
    (h : isStatement (g.kind i) = false) :
    linesAt g indent (n + 1) i = [exprAt g indent n i ++ ";"] := by
  unfold linesAt
  cases hk : g.kind i <;> first | rfl | (rw [hk] at h; cases h)

/-- Two printers give the same texts at and below corresponding nodes. -/
def Agree (k : Graph) (f : Id → Id) (e e' : Id → String) (l l' : Id → List String) (i : Id) :
    Prop :=
  ∀ d j, k.Below i d j → e' (f j) = e j ∧ l' (f j) = l j

namespace Agree

variable {k : Graph} {f : Id → Id} {e e' : Id → String} {l l' : Id → List String} {i c : Id}

theorem expr (h : Agree k f e e' l l' i) : e' (f i) = e i := (h 0 i .refl).1

theorem lines (h : Agree k f e e' l l' i) : l' (f i) = l i := (h 0 i .refl).2

theorem child (h : Agree k f e e' l l' i) (hc : c ∈ k.children i) : Agree k f e e' l l' c :=
  fun d j hd => h (d + 1) j (hd.cons hc)

end Agree

end Glsl

namespace Graph.Copy

open Glsl

variable {linked : Prop} {f : Id → Id} {k g : Graph} {e e' : Id → String}
  {l l' : Id → List String} {i : Id}

/-! ## Parts of statements -/

section Parts

variable (r : Copy linked f k g)

include r

theorem declaredType (i : Id) : Glsl.declaredType g (f i) = Glsl.declaredType k i := by
  unfold Glsl.declaredType
  rw [r.ty?]

theorem declaratorText (h : ∀ c ∈ k.children i, Agree k f e e' l l' c)
    (hi : (∀ name init, k.kind i ≠ .declarator name init) → e' (f i) = e i) :
    Glsl.declaratorText g e' (f i) = Glsl.declaratorText k e i := by
  unfold Glsl.declaratorText
  rw [r.kind]
  unfold Graph.children at h
  cases hk : k.kind i with
  | declarator name init =>
    rw [hk] at h
    have hname := (h name (by simp [Kind.children])).expr
    cases init with
    | none => simp only [Kind.map, Option.map_none, r.declaredType, hname]
    | some init =>
      have hinit := (h init (by simp [Kind.children])).expr
      simp only [Kind.map, Option.map_some, r.declaredType, hname, hinit]
  | _ => exact hi (by rw [hk]; intros; exact Kind.noConfusion)

theorem initText {o : Option Id} (h : ∀ i ∈ o, Agree k f e e' l l' i) :
    Glsl.initText g e' (o.map f) = Glsl.initText k e o := by
  cases o with
  | none => rfl
  | some i =>
    have hi := h i rfl
    simp only [Option.map_some, Glsl.initText, r.kind]
    cases hk : k.kind i with
    | varDecl ds =>
      simp only [Kind.map, List.map_map]
      refine congrArg headerText (List.map_congr_left fun d hd => ?_)
      have hd' := hi.child (c := d) (by rw [Graph.children, hk]; exact hd)
      exact r.declaratorText (fun _ hc => hd'.child hc) fun _ => hd'.expr
    | _ => exact hi.expr

theorem conditionText (h : Agree k f e e' l l' i) :
    Glsl.conditionText g e' (f i) = Glsl.conditionText k e i := by
  unfold Glsl.conditionText
  rw [r.kind, h.expr]
  cases k.kind i <;> rfl

theorem paramText (h : Agree k f e e' l l' i) :
    Glsl.paramText g e' (f i) = Glsl.paramText k e i := by
  unfold Glsl.paramText
  rw [(r.node i).out, r.declaredType, h.expr]

theorem nestedLines (indent : String) (h : ∀ c ∈ k.children i, Agree k f e e' l l' c)
    (hi : (∀ body, k.kind i ≠ .block body) → l' (f i) = l i) :
    Glsl.nestedLines g indent l' (f i) = Glsl.nestedLines k indent l i := by
  unfold Glsl.nestedLines
  rw [r.kind]
  refine congrArg (List.map (indent ++ ·)) ?_
  unfold Graph.children at h
  cases hk : k.kind i with
  | block body =>
    rw [hk] at h
    simp only [Kind.map, List.flatMap_map]
    exact List.flatMap_congr fun s hs => (h s hs).lines
  | _ => exact hi (by rw [hk]; intros; exact Kind.noConfusion)

theorem bodyLines (indent : String) (h : Agree k f e e' l l' i) :
    Glsl.nestedLines g indent l' (f i) = Glsl.nestedLines k indent l i :=
  r.nestedLines indent (fun _ hc => h.child hc) fun _ => h.lines

theorem elseLines (indent : String) {o : Option Id} (h : ∀ i ∈ o, Agree k f e e' l l' i) :
    Glsl.elseLines g indent l' (o.map f) = Glsl.elseLines k indent l o := by
  cases o with
  | none => rfl
  | some i =>
    have hi := h i rfl
    simp only [Option.map_some, Glsl.elseLines, r.kind]
    cases k.kind i with
    | ifElse => exact congrArg continued hi.lines
    | _ => simp only [Kind.map, r.bodyLines indent hi]

theorem exprStmtLines (h : Agree k f e e' l l' i) :
    Glsl.exprStmtLines g e' (f i) = Glsl.exprStmtLines k e i := by
  unfold Glsl.exprStmtLines
  rw [r.kind, h.expr]
  cases hk : k.kind i with
  | sequence es =>
    obtain _ | ⟨a, _ | ⟨b, rest⟩⟩ := es
    · rfl
    · rfl
    · simp only [Kind.map, List.map_cons]
      have hexpr : ∀ c ∈ a :: b :: rest, e' (f c) = e c := fun c hc =>
        (h.child (by rw [Graph.children, hk]; exact hc)).expr
      rw [hexpr a (by simp), hexpr b (by simp), List.map_map]
      refine congrArg (_ :: _ :: ·) (List.map_congr_left fun c hc => ?_)
      rw [Function.comp_apply, hexpr c (by simp [hc])]
  | _ => rfl

end Parts

theorem functionText (r : Copy True f k g) (indent : String) (valued : Bool) (hi : k.Bounded i)
    (h : ∀ c ∈ k.children i, Agree k f e e' l l' c) :
    Glsl.functionText g indent e' l' valued (f i) = Glsl.functionText k indent e l valued i := by
  unfold Glsl.functionText
  rw [r.kind]
  cases hk : k.kind i with
  | function name params body =>
    have hname := h name (by rw [Graph.children, hk]; simp [Kind.children])
    have hbody := h body (by rw [Graph.children, hk]; simp [Kind.children])
    have hparams : ∀ p ∈ params, Glsl.paramText g e' (f p) = Glsl.paramText k e p := fun p hp =>
      r.paramText (h p (by rw [Graph.children, hk]; simp [Kind.children, hp]))
    simp only [Kind.map, r.returnsValue hi, r.declaredType, hname.expr, List.map_map,
      r.bodyLines indent hbody]
    rw [show params.map (Glsl.paramText g e' ∘ f) = params.map (Glsl.paramText k e) from
      List.map_congr_left hparams]
  | _ => rfl

/-! ## One node -/

section Steps

variable (indent : String) {n m : Nat}

/-- Expressions agree if their children do, in whatever steps the lines around them are indented. -/
theorem exprStep {indent' : String} (r : Copy linked f k g) (hi : isStatement (k.kind i) = false)
    (h : ∀ c ∈ k.children i, exprAt g indent' m (f c) = exprAt k indent n c) :
    exprAt g indent' (m + 1) (f i) = exprAt k indent (n + 1) i := by
  have all : ∀ cs : List Id, (∀ c ∈ cs, c ∈ k.children i) →
      (cs.map f).map (exprAt g indent' m) = cs.map (exprAt k indent n) := by
    intro cs hcs
    rw [List.map_map]
    exact List.map_congr_left fun c hc => h c (hcs c hc)
  unfold exprAt
  simp only [r.kind]
  unfold Graph.children at h all
  cases hk : k.kind i with
  | program | function | varDecl | declarator | block | exprStmt | ifElse | forLoop | ret
  | discard =>
    rw [hk] at hi
    cases hi
  | ident | this | bool | raw => rfl
  | number => simp only [Kind.map, r.ty?]
  | binary op a b | assign op a b | field a b =>
    rw [hk] at h
    simp only [Kind.map, h a (by simp [Kind.children]), h b (by simp [Kind.children])]
  | unary op a | update op leading a =>
    rw [hk] at h
    simp only [Kind.map, h a (by simp [Kind.children])]
  | conditional a b c =>
    rw [hk] at h
    simp only [Kind.map, h a (by simp [Kind.children]), h b (by simp [Kind.children]),
      h c (by simp [Kind.children])]
  | call callee args =>
    rw [hk] at h all
    simp only [Kind.map, h callee (by simp [Kind.children]),
      all args fun c hc => List.mem_cons_of_mem _ hc]
  | index a b =>
    rw [hk] at h
    simp only [Kind.map, h a (by simp [Kind.children]), h b (by simp [Kind.children]), r.ty?,
      r.literalIndex?]
  | array elements =>
    rw [hk] at all
    simp only [Kind.map, r.ty?, List.length_map, all elements fun c hc => hc]
  | sequence exprs =>
    rw [hk] at all h
    have hall := all exprs fun c hc => hc
    obtain _ | ⟨a, _ | ⟨b, rest⟩⟩ := exprs
    · rfl
    · exact h a List.mem_cons_self
    · simp only [Kind.map, List.map_cons] at hall ⊢
      rw [hall]

theorem linesStep (r : Copy True f k g) (hi : isStatement (k.kind i) = true) (hb : k.Bounded i)
    (h : ∀ c ∈ k.children i, Agree k f (exprAt k indent n) (exprAt g indent m)
      (linesAt k indent n) (linesAt g indent m) c) :
    linesAt g indent (m + 1) (f i) = linesAt k indent (n + 1) i := by
  have option : ∀ {o : Option Id}, (∀ c ∈ o, c ∈ k.children i) →
      (o.map f).map (exprAt g indent m) = o.map (exprAt k indent n) := by
    intro o ho
    cases o with
    | none => rfl
    | some c => exact congrArg some (h c (ho c rfl)).expr
  have hfunction := r.functionText indent false hb h
  have hdeclarator := r.declaratorText h
  have hblock := r.nestedLines indent h
  unfold linesAt
  simp only [r.kind]
  unfold Graph.children at h option
  cases hk : k.kind i with
  | conditional | binary | assign | unary | update | call | field | index | array | ident | this
  | number | bool | sequence | raw =>
    rw [hk] at hi
    cases hi
  | program body =>
    rw [hk] at h
    simp only [Kind.map, List.flatMap_map]
    exact List.flatMap_congr fun s hs => (h s hs).lines
  | function => exact hfunction
  | varDecl ds =>
    rw [hk] at h
    simp only [Kind.map, List.map_map]
    refine List.map_congr_left fun d hd => ?_
    rw [Function.comp_apply,
      r.declaratorText (fun _ hc => (h d hd).child hc) fun _ => (h d hd).expr]
  | declarator name init =>
    simp only [Kind.map, hdeclarator fun hno => absurd hk (hno name init)]
  | block body =>
    simp only [Kind.map, hblock fun hno => absurd hk (hno body)]
  | exprStmt a =>
    rw [hk] at h
    exact r.exprStmtLines (h a (by simp [Kind.children]))
  | ifElse test consequent alternate =>
    rw [hk] at h
    simp only [Kind.map, r.conditionText (h test (by simp [Kind.children])),
      r.bodyLines indent (h consequent (by simp [Kind.children])),
      r.elseLines indent fun c (hc : alternate = some c) => h c (by simp [Kind.children, hc])]
  | forLoop init test step body =>
    rw [hk] at h option
    simp only [Kind.map, r.initText fun c (hc : init = some c) => h c (by simp [Kind.children, hc]),
      option (o := test) fun c (hc : test = some c) => by simp [Kind.children, hc],
      option (o := step) fun c (hc : step = some c) => by simp [Kind.children, hc],
      r.bodyLines indent (h body (by simp [Kind.children]))]
  | ret argument =>
    rw [hk] at h
    cases argument with
    | none => rfl
    | some a => simp only [Kind.map, Option.map_some, (h a (by simp [Kind.children])).expr]
  | discard => rfl

end Steps

/-! ## All depths -/

/-- **The texts of corresponding nodes are the same**, whatever is left of the depth. -/
theorem text (r : Copy True f k g) (indent : String) {n m : Nat} (hb : k.Bounded i)
    (hn : ∀ d j, k.Below i d j → 2 * d + 2 ≤ n) (hm : n ≤ m) :
    exprAt g indent m (f i) = exprAt k indent n i ∧
      linesAt g indent m (f i) = linesAt k indent n i := by
  induction n using Nat.strong_induction_on generalizing i m with
  | _ n ih =>
  obtain ⟨n, rfl⟩ := Nat.exists_eq_add_of_le' (hn 0 i .refl)
  obtain ⟨m, rfl⟩ := Nat.exists_eq_add_of_le' ((hn 0 i .refl).trans hm)
  have hnm : n ≤ m := Nat.le_of_add_le_add_right hm
  -- one step down leaves enough for one more step at the node itself
  have agree : ∀ p q, n ≤ p → p < n + 2 → p ≤ q → ∀ c ∈ k.children i,
      Agree k f (exprAt k indent p) (exprAt g indent q) (linesAt k indent p)
        (linesAt g indent q) c := by
    intro p q hp hpn hpq c hc d j hd
    refine ih p hpn (hb.below (hd.cons hc)) (fun d' j' hd' => ?_) hpq
    have := hn _ j' ((hd.cons hc).trans hd')
    omega
  have hlow := agree n m le_rfl (by omega) hnm
  have hhigh := agree (n + 1) (m + 1) (by omega) (by omega) (by omega)
  have hsame : isStatement (g.kind (f i)) = isStatement (k.kind i) := by
    rw [r.kind, isStatement_map]
  cases hs : isStatement (k.kind i) with
  | false =>
    have hexpr := r.exprStep (m := m) (n := n) indent hs fun c hc => (hlow c hc).expr
    refine ⟨r.exprStep indent hs fun c hc => (hhigh c hc).expr, ?_⟩
    rw [linesAt_of_expr indent (m + 1) (hsame.trans hs), linesAt_of_expr indent (n + 1) hs, hexpr]
  | true =>
    have hlines := r.linesStep indent hs hb hlow
    refine ⟨?_, r.linesStep indent hs hb hhigh⟩
    rw [exprAt_of_statement indent (m + 1) (hsame.trans hs), exprAt_of_statement indent (n + 1) hs,
      hlines]

theorem text_depth (r : Copy True f k g) (indent : String) (hb : k.Bounded i) :
    exprAt g indent g.textDepth (f i) = exprAt k indent k.textDepth i ∧
      linesAt g indent g.textDepth (f i) = linesAt k indent k.textDepth i := by
  refine r.text indent hb (fun d j hd => ?_) (Nat.mul_le_mul_left 2 r.size_le)
  have := (hb d j hd).1
  unfold textDepth
  omega

theorem render (r : Copy True f k g) (hb : k.Bounded i) : g.render (f i) = k.render i :=
  (r.text_depth "    " hb).1

theorem lines (r : Copy True f k g) (indent : String) (hb : k.Bounded i) :
    g.lines indent (f i) = k.lines indent i :=
  (r.text_depth indent hb).2

theorem functionLines (r : Copy True f k g) (indent : String) (valued : Bool) (hb : k.Bounded i) :
    g.functionLines indent valued (f i) = k.functionLines indent valued i := by
  refine r.functionText indent valued hb fun c hc d j hd => ?_
  exact r.text_depth indent (hb.below (hd.cons hc))

end Graph.Copy

end ShaderScript
