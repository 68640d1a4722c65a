import ShaderScript.Proofs.Glsl.Copies
import ShaderScript.Proofs.Glsl.Template
import ShaderScript.Proofs.Glsl.Variants

/-!
# Where the text of an effect goes

The printers of a program and of its variants agree but for one text. How often it is shown adds up
from the parts of each node.

* `Graph.HeadsDeclare`: the heads of loops hold declarators.
* `Shown`: printers show a node as often as `Graph.copies` says, at and below some node.
* `Shown.declaratorText`, `Shown.nestedLines`, …: so do the parts of statements.
* `Shown.exprStep`, `Shown.linesStep`: what holds for the children of a node holds for the node.
* **`Shown.text`**: the texts of all variants show the node, whatever is left of the depth.
-/

namespace ShaderScript

open Graph

/-! ## Heads of loops -/

/-- Whether a node is a declarator. -/
def Graph.isDeclarator (g : Graph) (i : Id) : Bool :=
  match g.kind i with
  | .declarator .. => true
  | _ => false

/-- What a `var` statement in the head of a `for` statement lists after the first part. -/
def Graph.laterParts (g : Graph) (i : Id) : List Id :=
  match g.kind i with
  | .forLoop (some head) .. =>
    match g.kind head with
    | .varDecl ds => ds.tail
    | _ => []
  | _ => []

/-- In the heads of loops at and below `j`, the later parts around `i` are declarators. Anything
else is taken for one there, and loses what is before its first space as if it were a type. -/
def Graph.HeadsDeclare (g : Graph) (i j : Id) : Prop :=
  ∀ a ∈ g.descendants j, ∀ c ∈ g.laterParts a, i ∈ g.descendants c → g.isDeclarator c = true

instance (g : Graph) (i j : Id) : Decidable (g.HeadsDeclare i j) :=
  inferInstanceAs (Decidable (∀ a ∈ g.descendants j, ∀ c ∈ g.laterParts a,
    i ∈ g.descendants c → g.isDeclarator c = true))

namespace Graph

variable {g : Graph} {i j k : Id} {d : Nat}

theorem below_of_mem_laterParts (hk : k ∈ g.laterParts j) : g.Below j 2 k := by
  unfold laterParts at hk
  split at hk
  · rename_i head test step body hj
    split at hk
    · rename_i ds hhead
      refine .step (.step .refl (c := head) ?_) ?_
      · rw [children, hj]
        exact List.mem_cons_self
      · rw [children, hhead]
        exact List.mem_of_mem_tail hk
    · cases hk
  · cases hk

theorem HeadsDeclare.below (h : g.HeadsDeclare i j) (hg : g.Unshared) (hj : j ∈ g.live)
    (hd : g.Below j d k) : g.HeadsDeclare i k :=
  fun a ha => h a (hg.mem_descendants_of_below hj hd ha)

theorem Unshared.headsDeclare_of_notMem (hg : g.Unshared) (hj : j ∈ g.live)
    (hi : i ∉ g.descendants j) : g.HeadsDeclare i j := by
  intro a ha c hc hic
  obtain ⟨d, hd⟩ := (hg.mem_descendants_iff hj).mp ha
  exact absurd (hg.mem_descendants_of_below hj (hd.trans (below_of_mem_laterParts hc)) hic) hi

end Graph

namespace Glsl

/-- A declarator without its type. -/
def untypedText (expr : Id → String) (name : Id) (init : Option Id) : String :=
  expr name ++ (init.map fun value => " = " ++ expr value).getD ""

theorem declaratorText_eq {g : Graph} {d name : Id} {init : Option Id}
    (hk : g.kind d = .declarator name init) (expr : Id → String) :
    declaratorText g expr d = declaredType g name ++ (" " ++ untypedText expr name init) := by
  unfold declaratorText untypedText
  cases init with
  | none => simp [hk, String.append_assoc]
  | some value => simp [hk, String.append_assoc]

theorem space_notMem_name (t : Ty) : ' ' ∉ t.name.toList := by cases t <;> decide

theorem afterSpace_declaratorText {g : Graph} {d name : Id} {init : Option Id}
    (hk : g.kind d = .declarator name init) (expr : Id → String) :
    afterSpace (declaratorText g expr d) = untypedText expr name init := by
  have htype : ∀ c ∈ (declaredType g name).toList, (c != ' ') = true := fun c hc => by
    rw [bne_iff_ne]
    rintro rfl
    exact space_notMem_name _ hc
  rw [declaratorText_eq hk, afterSpace, String.toList_append, String.toList_append,
    List.dropWhile_append_of_pos htype]
  simp

end Glsl

/-! ## Printers that show a node -/

variable {g : Graph} {i j : Id} {ι : Type} {s : ι → String} {e : ι → Id → String}
  {l : ι → Id → List String}

/-- The printers show the text of `i` as often as it is copied, at and below `j`. -/
def Shown (g : Graph) (i : Id) (s : ι → String) (e : ι → Id → String) (l : ι → Id → List String)
    (j : Id) : Prop :=
  ∀ d k, g.Below j d k →
    Shows s (g.copies i k) (fun v => e v k) ∧ ShowsLines s (g.copies i k) fun v => l v k

theorem Graph.Unshared.copies_of_kind (hg : g.Unshared) (hi : (g.kind i).isEffect = true)
    (hj : j ∈ g.live) {k : Kind} (hk : g.kind j = k) (he : k.isEffect = false)
    (hx : k.isIndex = false) : g.copies i j = (k.children.map (g.copies i)).sum := by
  refine hg.copies_of_ne hj ?_ hk hx
  rintro rfl
  rw [hk, he] at hi
  cases hi

namespace Shown

theorem expr (h : Shown g i s e l j) : Shows s (g.copies i j) fun v => e v j := (h 0 j .refl).1

theorem lines (h : Shown g i s e l j) : ShowsLines s (g.copies i j) fun v => l v j :=
  (h 0 j .refl).2

theorem child {c : Id} (h : Shown g i s e l j) (hc : c ∈ g.children j) : Shown g i s e l c :=
  fun d k hd => h (d + 1) k (hd.cons hc)

theorem option {o : Option Id} (h : ∀ c ∈ o, Shown g i s e l c) :
    Shows s (o.toList.map (g.copies i)).sum fun v => (o.map (e v)).getD "" := by
  cases o with
  | none => exact .const ""
  | some c => exact (h c rfl).expr

/-! ### Parts of statements -/

section Parts

variable (hg : g.Unshared) (hi : (g.kind i).isEffect = true)

include hg hi

theorem untypedText {name : Id} {init : Option Id} (hj : j ∈ g.live)
    (hk : g.kind j = .declarator name init) (h : ∀ c ∈ g.children j, Shown g i s e l c) :
    Shows s (g.copies i j) fun v => Glsl.untypedText (e v) name init := by
  rw [children, hk] at h
  rw [hg.copies_of_kind hi hj hk rfl rfl]
  refine (h name List.mem_cons_self).expr.append ?_
  cases init with
  | none => exact .const ""
  | some value => exact (h value (by simp [Kind.children])).expr.const_append _

theorem declaratorText (hj : j ∈ g.live) (h : ∀ c ∈ g.children j, Shown g i s e l c)
    (hself : (∀ name init, g.kind j ≠ .declarator name init) →
      Shows s (g.copies i j) fun v => e v j) :
    Shows s (g.copies i j) fun v => Glsl.declaratorText g (e v) j := by
  cases hk : g.kind j with
  | declarator name init =>
    simp only [Glsl.declaratorText_eq hk]
    exact ((untypedText hg hi hj hk h).const_append _).const_append _
  | _ =>
    unfold Glsl.declaratorText
    rw [hk]
    exact hself (by rw [hk]; intros; exact Kind.noConfusion)

/-- In the head of a loop the declarators after the first lose their type and nothing else. -/
theorem afterSpace (hj : j ∈ g.live) (h : Shown g i s e l j)
    (hdecl : i ∈ g.descendants j → g.isDeclarator j = true) :
    Shows s (g.copies i j) fun v => Glsl.afterSpace (Glsl.declaratorText g (e v) j) := by
  by_cases hij : i ∈ g.descendants j
  · replace hdecl := hdecl hij
    unfold isDeclarator at hdecl
    split at hdecl
    · rename_i name init hk
      simp only [Glsl.afterSpace_declaratorText hk]
      exact untypedText hg hi hj hk fun c hc => h.child hc
    · cases hdecl
  · have hd := declaratorText hg hi hj (fun c hc => h.child hc) fun _ => h.expr
    rw [copies_of_notMem hij] at hd ⊢
    exact hd.comp Glsl.afterSpace

theorem initText {o : Option Id} (ho : ∀ a ∈ o, a ∈ g.live) (h : ∀ a ∈ o, Shown g i s e l a)
    (hdecl : ∀ a ∈ o, ∀ ds, g.kind a = .varDecl ds → ∀ c ∈ ds.tail, i ∈ g.descendants c →
      g.isDeclarator c = true) :
    Shows s (o.toList.map (g.copies i)).sum fun v => Glsl.initText g (e v) o := by
  cases o with
  | none => exact .const ""
  | some a =>
    have ha := h a rfl
    simp only [Option.toList_some, List.map_singleton, List.sum_singleton, Glsl.initText]
    cases hk : g.kind a with
    | varDecl ds =>
      have hchildren : g.children a = ds := congrArg Kind.children hk
      have hlive : ∀ c ∈ ds, c ∈ g.live := fun c hc => hg.child_live (ho a rfl) (hchildren ▸ hc)
      have hshown : ∀ c ∈ ds, Shown g i s e l c := fun c hc => ha.child (hchildren ▸ hc)
      rw [hg.copies_of_kind hi (ho a rfl) hk rfl rfl]
      cases ds with
      | nil => exact .const ""
      | cons d ds =>
        have hd := hshown d List.mem_cons_self
        have hfirst := declaratorText hg hi (hlive d List.mem_cons_self) (fun c hc => hd.child hc)
          fun _ => hd.expr
        have hrest : ShowsLines s (ds.map (g.copies i)).sum fun v =>
            ds.map fun c => Glsl.afterSpace (Glsl.declaratorText g (e v) c) := .map fun c hc =>
          have hc' := List.mem_cons_of_mem d hc
          afterSpace hg hi (hlive c hc') (hshown c hc') (hdecl a rfl (d :: ds) hk c hc)
        simp only [Glsl.headerText, List.map_cons, List.map_map]
        exact (ShowsLines.cons hfirst hrest).intercalate ", "
    | _ => exact ha.expr

omit hg hi in
theorem conditionText (h : Shown g i s e l j) :
    Shows s (g.copies i j) fun v => Glsl.conditionText g (e v) j := by
  unfold Glsl.conditionText
  split
  · exact h.expr
  · exact h.expr
  · exact (h.expr.const_append _).append_const _

omit hg hi in
theorem paramText (h : Shown g i s e l j) :
    Shows s (g.copies i j) fun v => Glsl.paramText g (e v) j :=
  (h.expr.const_append _)

theorem nestedLines (indent : String) (hj : j ∈ g.live)
    (h : ∀ c ∈ g.children j, Shown g i s e l c)
    (hself : (∀ body, g.kind j ≠ .block body) → ShowsLines s (g.copies i j) fun v => l v j) :
    ShowsLines s (g.copies i j) fun v => Glsl.nestedLines g indent (l v) j := by
  unfold Glsl.nestedLines
  refine ShowsLines.indented indent ?_
  cases hk : g.kind j with
  | block body =>
    rw [children, hk] at h
    rw [hg.copies_of_kind hi hj hk rfl rfl]
    exact .flatMap fun c hc => (h c hc).lines
  | _ => exact hself (by rw [hk]; intros; exact Kind.noConfusion)

theorem bodyLines (indent : String) (hj : j ∈ g.live) (h : Shown g i s e l j) :
    ShowsLines s (g.copies i j) fun v => Glsl.nestedLines g indent (l v) j :=
  nestedLines hg hi indent hj (fun _ hc => h.child hc) fun _ => h.lines

theorem elseLines (indent : String) {o : Option Id} (ho : ∀ a ∈ o, a ∈ g.live)
    (h : ∀ a ∈ o, Shown g i s e l a) :
    ShowsLines s (o.toList.map (g.copies i)).sum fun v => Glsl.elseLines g indent (l v) o := by
  cases o with
  | none => exact .singleton (.const _)
  | some a =>
    simp only [Option.toList_some, List.map_singleton, List.sum_singleton, Glsl.elseLines]
    split
    · exact (h a rfl).lines.continued
    · have hbody := bodyLines hg hi indent (ho a rfl) (h a rfl)
      have hall := ShowsLines.cons (.const "\x7d else \x7b") (hbody.append_const "\x7d")
      simpa only [Nat.zero_add] using hall

theorem exprStmtLines (hj : j ∈ g.live) (h : Shown g i s e l j) :
    ShowsLines s (g.copies i j) fun v => Glsl.exprStmtLines g (e v) j := by
  unfold Glsl.exprStmtLines
  split
  · rename_i a b rest hk
    rw [hg.copies_of_kind hi hj hk rfl rfl]
    refine .map fun c hc => (h.child ?_).expr.append_const _
    rw [children, hk]
    exact hc
  · exact .singleton (h.expr.append_const _)

theorem functionText (indent : String) (valued : Bool) (hj : j ∈ g.live)
    (hf : g.isFunction j = true) (h : ∀ c ∈ g.children j, Shown g i s e l c) :
    ShowsLines s (g.copies i j) fun v => Glsl.functionText g indent (e v) (l v) valued j := by
  unfold isFunction at hf
  split at hf
  · rename_i name params body hk
    rw [hg.copies_of_kind hi hj hk rfl rfl]
    have hlive : ∀ c ∈ g.children j, c ∈ g.live := fun c hc => hg.child_live hj hc
    rw [children, hk] at h hlive
    have hmem : body ∈ (Kind.function name params body).children := by simp [Kind.children]
    have hname := (h name List.mem_cons_self).expr
    have hparams : ShowsLines s (params.map (g.copies i)).sum fun v =>
        params.map (Glsl.paramText g (e v)) := .map fun p hp =>
      paramText (h p (by simp [Kind.children, hp]))
    have hbody := bodyLines hg hi indent (hlive body hmem) (h body hmem)
    have hsum : ((Kind.function name params body).children.map (g.copies i)).sum =
        g.copies i name + (params.map (g.copies i)).sum + g.copies i body := by
      simp [Kind.children, Nat.add_assoc]
    rw [hsum]
    simp only [Glsl.functionText, hk]
    exact .cons ((((hname.const_append _).append_const _).append
      (hparams.intercalate ", ")).append_const _) (hbody.append_const _)
  · cases hf

theorem copies_of_literal {p : Id} {k : Nat} (hp : p ∈ g.live)
    (hlit : g.literalIndex? p = some k) : g.copies i p = 0 := by
  unfold Graph.literalIndex? at hlit
  split at hlit
  · rename_i raw hk
    exact hg.copies_of_kind hi hp hk rfl rfl
  · cases hlit

theorem indexText {o p : Id} {target position : ι → String} (hj : j ∈ g.live) (hne : j ≠ i)
    (hk : g.kind j = .index o p) (ho : Shows s (g.copies i o) target)
    (hp : Shows s (g.copies i p) position) :
    Shows s (g.copies i j) fun v => Glsl.indexText ((g.ty? o).bind Ty.dimension?)
      (g.literalIndex? p) (target v) (position v) := by
  have hlive : p ∈ g.live := by
    refine hg.child_live hj ?_
    rw [children, hk]
    exact List.mem_cons_of_mem o List.mem_cons_self
  cases hdim : (g.ty? o).bind Ty.dimension? with
  | none =>
    rw [hg.copies_index_once hj hne hk (by simp [hdim])]
    exact ho.indexText_plain _ hp
  | some d =>
    cases hknown : g.literalIndex? p with
    | none =>
      rw [hg.copies_index hj hne hk (by simp [hdim]) hknown]
      exact ho.indexText_unknown d hp
    | some k =>
      rw [hg.copies_index_once hj hne hk (by simp [hknown]),
        copies_of_literal hg hi hlive hknown]
      exact ho.indexText_known d k

end Parts

/-! ### One node -/

section Steps

variable (hg : g.Unshared) (hi : (g.kind i).isEffect = true) {x : ι → Graph}
  (hx : ∀ v, Variant g i (x v)) (indent : String) {n : ι → Nat}

include hg hi hx

/-- An expression shows what its children show, and three times the unknown position of a matrix. -/
theorem exprStep (hs : ∀ v w, (s v).front? = (s w).front?) (hj : j ∈ g.live) (hne : j ≠ i)
    (hst : Glsl.isStatement (g.kind j) = false)
    (h : ∀ c ∈ g.children j, Shows s (g.copies i c) fun v => Glsl.exprAt (x v) indent (n v) c) :
    Shows s (g.copies i j) fun v => Glsl.exprAt (x v) indent (n v + 1) j := by
  have hkind : ∀ v, (x v).kind j = g.kind j := fun v => (hx v).kind j hne
  have hty : ∀ v c, (x v).ty? c = g.ty? c := fun v => (hx v).ty?
  have hlit : ∀ v c, (x v).literalIndex? c = g.literalIndex? c := fun v => (hx v).literalIndex?
  have list : ∀ cs : List Id, (∀ c ∈ cs, c ∈ g.children j) →
      Shows s (cs.map (g.copies i)).sum fun v =>
        Glsl.commaList (cs.map (Glsl.exprAt (x v) indent (n v))) := fun cs hcs =>
    (ShowsLines.map fun c hc => h c (hcs c hc)).intercalate ", "
  unfold Glsl.exprAt
  simp only [hkind, hty, hlit]
  unfold Graph.children at h list
  cases hk : g.kind j with
  | program | function | varDecl | declarator | block | exprStmt | ifElse | forLoop | ret
  | discard =>
    rw [hk] at hst
    cases hst
  | ident | this | bool | raw | number =>
    rw [hg.copies_of_ne hj hne hk rfl]
    exact .const _
  | binary op a b =>
    rw [hk] at h
    have ha := h a (by simp [Kind.children])
    have hb := h b (by simp [Kind.children])
    rw [hg.copies_of_ne hj hne hk rfl]
    exact ha.binaryText op hb
  | assign op a b =>
    rw [hk] at h
    have ha := h a (by simp [Kind.children])
    have hb := h b (by simp [Kind.children])
    rw [hg.copies_of_ne hj hne hk rfl]
    exact (((ha.append_const _).append_const _).append_const _).append hb
  | field a b =>
    rw [hk] at h
    have ha := h a (by simp [Kind.children])
    have hb := h b (by simp [Kind.children])
    rw [hg.copies_of_ne hj hne hk rfl]
    exact (ha.append_const _).append hb
  | unary op a =>
    rw [hk] at h
    rw [hg.copies_of_ne hj hne hk rfl]
    exact (h a (by simp [Kind.children])).unaryText hs op
  | update op leading a =>
    rw [hk] at h
    rw [hg.copies_of_ne hj hne hk rfl]
    exact (h a (by simp [Kind.children])).updateText op leading
  | conditional a b c =>
    rw [hk] at h
    have ha := h a (by simp [Kind.children])
    have hb := h b (by simp [Kind.children])
    have hc := h c (by simp [Kind.children])
    have hsum : ((Kind.conditional a b c).children.map (g.copies i)).sum =
        g.copies i a + g.copies i b + g.copies i c := by
      simp [Kind.children, Nat.add_assoc]
    rw [hg.copies_of_ne hj hne hk rfl, hsum]
    exact (((((ha.const_append _).append_const _).append hb).append_const _).append hc).append_const _
  | call callee args =>
    rw [hk] at h list
    have hcallee := h callee (by simp [Kind.children])
    have hargs := list args fun c hc => List.mem_cons_of_mem _ hc
    rw [hg.copies_of_ne hj hne hk rfl]
    exact ((hcallee.append_const _).append hargs).append_const _
  | index a b =>
    rw [hk] at h
    have ha := h a (by simp [Kind.children])
    have hb := h b (by simp [Kind.children])
    exact indexText hg hi hj hne hk ha hb
  | array elements =>
    rw [hk] at list
    rw [hg.copies_of_ne hj hne hk rfl]
    exact ((list elements fun c hc => hc).const_append _).append_const _
  | sequence exprs =>
    rw [hk] at list h
    rw [hg.copies_of_ne hj hne hk rfl]
    have hall := list exprs fun c hc => hc
    obtain _ | ⟨a, _ | ⟨b, rest⟩⟩ := exprs
    · exact (hall.const_append _).append_const _
    · exact h a List.mem_cons_self
    · exact (hall.const_append _).append_const _

theorem linesStep (hheads : g.HeadsDeclare i j) (hj : j ∈ g.live)
    (hst : Glsl.isStatement (g.kind j) = true)
    (h : ∀ c ∈ g.children j, Shown g i s (fun v => Glsl.exprAt (x v) indent (n v))
      (fun v => Glsl.linesAt (x v) indent (n v)) c) :
    ShowsLines s (g.copies i j) fun v => Glsl.linesAt (x v) indent (n v + 1) j := by
  have hne : j ≠ i := by
    rintro rfl
    rw [Kind.isStatement_of_isEffect hi] at hst
    cases hst
  have hkind : ∀ v, (x v).kind j = g.kind j := fun v => (hx v).kind j hne
  have hlive : ∀ c ∈ g.children j, c ∈ g.live := fun c hc => hg.child_live hj hc
  have hfunction := functionText hg hi indent false hj (h := h)
  have hdeclarator := declaratorText hg hi hj h
  have hblock := nestedLines hg hi indent hj h
  unfold Glsl.linesAt
  simp only [hkind, fun v => (hx v).declaratorText, fun v => (hx v).exprStmtLines,
    fun v => (hx v).nestedLines, fun v => (hx v).elseLines, fun v => (hx v).conditionText,
    fun v => (hx v).initText, fun v => (hx v).functionText]
  unfold Graph.children at h hlive
  cases hk : g.kind j with
  | conditional | binary | assign | unary | update | call | field | index | array | ident | this
  | number | bool | sequence | raw =>
    rw [hk] at hst
    cases hst
  | program body =>
    rw [hk] at h
    rw [hg.copies_of_ne hj hne hk rfl]
    exact .flatMap fun c hc => (h c hc).lines
  | function => exact hfunction (by simp [isFunction, hk])
  | varDecl ds =>
    rw [hk] at h hlive
    rw [hg.copies_of_ne hj hne hk rfl]
    exact .map fun d hd => (declaratorText hg hi (hlive d hd) (fun _ hc => (h d hd).child hc)
      fun _ => (h d hd).expr).append_const _
  | declarator name init =>
    exact .singleton ((hdeclarator fun hno => absurd hk (hno name init)).append_const _)
  | block body =>
    have hbody := (hblock fun hno => absurd hk (hno body)).append_const "\x7d"
    simpa only [Nat.zero_add] using ShowsLines.cons (.const "\x7b") hbody
  | exprStmt a =>
    rw [hk] at h hlive
    rw [hg.copies_of_ne hj hne hk rfl]
    exact exprStmtLines hg hi (hlive a (by simp [Kind.children])) (h a (by simp [Kind.children]))
  | ifElse test consequent alternate =>
    rw [hk] at h hlive
    have hif := conditionText (h test (by simp [Kind.children]))
    have hthen := bodyLines hg hi indent (hlive consequent (by simp [Kind.children]))
      (h consequent (by simp [Kind.children]))
    have helse := elseLines hg hi indent (o := alternate)
      (fun c (hc : alternate = some c) => hlive c (by simp [Kind.children, hc]))
      (fun c (hc : alternate = some c) => h c (by simp [Kind.children, hc]))
    rw [hg.copies_of_ne hj hne hk rfl]
    exact .cons ((hif.const_append _).append_const _) (hthen.append helse)
  | forLoop init test step body =>
    have hhead := hheads j ((hg.mem_descendants_iff hj).mpr ⟨0, .refl⟩)
    rw [hk] at h hlive
    have hinit := initText hg hi (o := init)
      (fun c (hc : init = some c) => hlive c (by simp [Kind.children, hc]))
      (fun c (hc : init = some c) => h c (by simp [Kind.children, hc]))
      (fun c (hc : init = some c) ds hds => by simpa [laterParts, hk, hc, hds] using hhead)
    have htest := option (o := test)
      fun c (hc : test = some c) => h c (by simp [Kind.children, hc])
    have hstep := option (o := step)
      fun c (hc : step = some c) => h c (by simp [Kind.children, hc])
    have hbody := bodyLines hg hi indent (hlive body (by simp [Kind.children]))
      (h body (by simp [Kind.children]))
    have hsum : ((Kind.forLoop init test step body).children.map (g.copies i)).sum =
        (init.toList.map (g.copies i)).sum + (test.toList.map (g.copies i)).sum +
          (step.toList.map (g.copies i)).sum + g.copies i body := by
      simp [Kind.children, Nat.add_assoc]
    rw [hg.copies_of_ne hj hne hk rfl, hsum]
    exact .cons ((((((hinit.const_append _).append_const _).append htest).append_const _).append
      hstep).append_const _) (hbody.append_const _)
  | ret argument =>
    rw [hk] at h
    rw [hg.copies_of_ne hj hne hk rfl]
    cases argument with
    | none => exact .singleton (.const _)
    | some a =>
      exact .singleton (((h a (by simp [Kind.children])).expr.const_append _).append_const _)
  | discard =>
    rw [hg.copies_of_ne hj hne hk rfl]
    exact .singleton (.const _)

/-! ### All depths -/

omit hg in
/-- At the node itself its text is shown, and a semicolon after it where it is a statement. -/
theorem atSite (hlow : ∀ v, Glsl.exprAt (x v) indent (n v + 1) i = s v)
    (hhigh : ∀ v, Glsl.exprAt (x v) indent (n v + 2) i = s v) :
    Shows s 1 (fun v => Glsl.exprAt (x v) indent (n v + 2) i) ∧
      ShowsLines s 1 fun v => Glsl.linesAt (x v) indent (n v + 2) i := by
  have hnot : ∀ v, Glsl.isStatement ((x v).kind i) = false := fun v =>
    ((hx v).isStatement i).trans (Kind.isStatement_of_isEffect hi)
  simp only [fun v => Glsl.linesAt_of_expr indent (n v + 1) (hnot v), hlow, hhigh]
  exact ⟨.self, .singleton (Shows.self.append_const ";")⟩

/-- **The texts of all variants show the node as often as it is copied**, whatever is left of the
depth. -/
theorem text (hs : ∀ v w, (s v).front? = (s w).front?) (hj : j ∈ g.live)
    (hheads : g.HeadsDeclare i j) {b : Nat} (hb : ∀ d k, g.Below j d k → 2 * d + 2 ≤ b)
    (hn : ∀ v, b ≤ n v) (hsite : i ∈ g.descendants j → ∀ v m,
      (∀ d k, g.Below i d k → 2 * d + 1 ≤ m) → Glsl.exprAt (x v) indent m i = s v) :
    Shows s (g.copies i j) (fun v => Glsl.exprAt (x v) indent (n v) j) ∧
      ShowsLines s (g.copies i j) fun v => Glsl.linesAt (x v) indent (n v) j := by
  induction b using Nat.strong_induction_on generalizing j n with
  | _ b ih =>
  obtain ⟨b, rfl⟩ := Nat.exists_eq_add_of_le' (hb 0 j .refl)
  have htwo : ∀ v, 2 ≤ n v := fun v => (Nat.le_add_left 2 b).trans (hn v)
  obtain ⟨m, rfl⟩ : ∃ m : ι → Nat, n = fun v => m v + 2 :=
    ⟨fun v => n v - 2, funext fun v => (Nat.sub_add_cancel (htwo v)).symm⟩
  have hm : ∀ v, b ≤ m v := fun v => Nat.le_of_add_le_add_right (hn v)
  by_cases hij : j = i
  · subst hij
    have hself := hsite ((hg.mem_descendants_iff hj).mpr ⟨0, .refl⟩)
    have hdeep : ∀ v p, b < p → Glsl.exprAt (x v) indent p j = s v := fun v p hp => by
      refine hself v p fun d k hd => ?_
      have := hb d k hd
      omega
    rw [hg.copies_self hj]
    exact atSite hi hx indent (fun v => hdeep v _ (Nat.lt_succ_of_le (hm v)))
      fun v => hdeep v _ (Nat.lt_add_right 1 (Nat.lt_succ_of_le (hm v)))
  · -- one step down leaves enough for one more step at the node itself
    have shown : ∀ p (q : ι → Nat), b ≤ p → p < b + 2 → (∀ v, p ≤ q v) → ∀ c ∈ g.children j,
        Shown g i s (fun v => Glsl.exprAt (x v) indent (q v))
          (fun v => Glsl.linesAt (x v) indent (q v)) c := by
      intro p q hp hpb hq c hc d k hd
      have hbelow := hd.cons hc
      refine ih p hpb (hg.live_of_below hj hbelow) (hheads.below hg hj hbelow) (fun e a he => ?_) hq
        fun hik => hsite (hg.mem_descendants_of_below hj hbelow hik)
      have := hb _ a (hbelow.trans he)
      omega
    have hlow := shown b m le_rfl (by omega) hm
    have hhigh := shown (b + 1) (fun v => m v + 1) (by omega) (by omega) fun v => by
      have := hm v
      omega
    have hstatement := fun v => (hx v).isStatement j
    cases hst : Glsl.isStatement (g.kind j) with
    | false =>
      have hexpr := exprStep hg hi hx indent hs hj hij hst fun c hc => (hlow c hc).expr
      refine ⟨exprStep hg hi hx indent hs hj hij hst fun c hc => (hhigh c hc).expr, ?_⟩
      simp only [fun v => Glsl.linesAt_of_expr indent (m v + 1) ((hstatement v).trans hst)]
      exact .singleton (hexpr.append_const _)
    | true =>
      have hlines := linesStep hg hi hx indent hheads hj hst hlow
      refine ⟨?_, linesStep hg hi hx indent hheads hj hst hhigh⟩
      simp only [fun v => Glsl.exprAt_of_statement indent (m v + 1) ((hstatement v).trans hst)]
      exact hlines.intercalate "\n"

end Steps

end Shown

end ShaderScript
