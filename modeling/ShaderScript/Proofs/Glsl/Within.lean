import ShaderScript.Proofs.Glsl.Shown

/-!
# Where the lines of a node go

A function, a loop and a declarator begin with a line of their own. Wherever such a node lies in a
function, that line is part of a line of the function: nothing around it is left out of the text or
takes it apart.

* `Within`, `InLines`: a text is part of another, and of a line.
* `Graph.textOf`, `Graph.IsTree.text_succ`: the text of a node inside a program, whatever is left of
  the depth.
* `Graph.Opens`: the nodes that begin with a line of their own.
* `Carries`: printers show a text at and below some node, wherever a certain node is.
* `Carries.declaratorText`, `Carries.nestedLines`, …: so do the parts of statements.
* `within_exprAt`, `Carries.linesStep`: what holds for the children of a node holds for the node.
* `Graph.opening`: the line that a node begins with.
* **`carries_text`**, **`inLines_functionLines`**: the text of a program carries what its nodes
  begin with.
-/

namespace ShaderScript

open Graph

/-! ## Parts of texts -/

/-- A text is part of another. -/
def Within (s text : String) : Prop := ∃ head tail, text = head ++ s ++ tail

/-- A text is part of a line. -/
def InLines (s : String) (lines : List String) : Prop := ∃ line ∈ lines, Within s line

namespace Within

variable {s text : String}

theorem refl (s : String) : Within s s := ⟨"", "", by simp⟩

theorem append_left (h : Within s text) (before : String) : Within s (before ++ text) := by
  obtain ⟨head, tail, rfl⟩ := h
  exact ⟨before ++ head, tail, by simp only [String.append_assoc]⟩

theorem append_right (h : Within s text) (after : String) : Within s (text ++ after) := by
  obtain ⟨head, tail, rfl⟩ := h
  exact ⟨head, tail ++ after, by simp only [String.append_assoc]⟩

theorem between (h : Within s text) (before after : String) :
    Within s (before ++ text ++ after) :=
  (h.append_left before).append_right after

theorem binaryText_left (op : BinaryOp) (h : Within s text) (right : String) :
    Within s (Glsl.binaryText op text right) := by
  unfold Glsl.binaryText
  split
  · exact ((h.between _ _).append_right _).append_right _
  · exact ((((h.between _ _).append_right _).append_right _).append_right _).append_right _

theorem binaryText_right (op : BinaryOp) (h : Within s text) (left : String) :
    Within s (Glsl.binaryText op left text) := by
  unfold Glsl.binaryText
  split
  · exact h.between _ _
  · exact h.between _ _

theorem unaryText (op : UnaryOp) (h : Within s text) : Within s (Glsl.unaryText op text) := by
  have hsigned : ∀ sign, Within s (Glsl.signed sign text) := by
    intro sign
    unfold Glsl.signed
    split_ifs
    · exact h.between _ _
    · exact h.append_left _
  cases op with
  | plus => exact h
  | neg | not => exact hsigned _

theorem updateText (op : UpdateOp) (leading : Bool) (h : Within s text) :
    Within s (Glsl.updateText op leading text) := by
  unfold Glsl.updateText
  split_ifs
  · exact h.append_left _
  · exact h.append_right _

theorem indexText_target (dimension literal : Option Nat) (h : Within s text)
    (position : String) : Within s (Glsl.indexText dimension literal text position) := by
  unfold Glsl.indexText
  split
  all_goals
    simp only [String.append_assoc]
    exact h.append_right _

theorem indexText_position (dimension : Option Nat) (target : String) (h : Within s text) :
    Within s (Glsl.indexText dimension none target text) := by
  cases dimension with
  | none => exact h.between _ _
  | some n =>
    have hcolumn : Within s ("(" ++ text ++ " / " ++ toString n ++ ")") :=
      ((h.between _ _).append_right _).append_right _
    exact (((hcolumn.between _ _).append_right _).append_right _)

end Within

namespace InLines

variable {s line : String} {lines : List String}

theorem of_mem (h : line ∈ lines) (hs : Within s line) : InLines s lines := ⟨line, h, hs⟩

theorem head (h : Within s line) (rest : List String) : InLines s (line :: rest) :=
  of_mem List.mem_cons_self h

theorem tail (h : InLines s lines) (first : String) : InLines s (first :: lines) :=
  let ⟨_, hmem, hs⟩ := h
  of_mem (List.mem_cons_of_mem first hmem) hs

theorem append_left (h : InLines s lines) (before : List String) : InLines s (before ++ lines) :=
  let ⟨_, hmem, hs⟩ := h
  of_mem (List.mem_append_right before hmem) hs

theorem append_right (h : InLines s lines) (after : List String) : InLines s (lines ++ after) :=
  let ⟨_, hmem, hs⟩ := h
  of_mem (List.mem_append_left after hmem) hs

theorem indented (h : InLines s lines) (indent : String) :
    InLines s (lines.map (indent ++ ·)) :=
  let ⟨_, hmem, hs⟩ := h
  of_mem (List.mem_map_of_mem hmem) (hs.append_left indent)

theorem flatMap {α : Type} {xs : List α} {x : α} {text : α → List String} (hx : x ∈ xs)
    (h : InLines s (text x)) : InLines s (xs.flatMap text) :=
  let ⟨_, hmem, hs⟩ := h
  of_mem (List.mem_flatMap.mpr ⟨x, hx, hmem⟩) hs

theorem continued (h : InLines s lines) : InLines s (Glsl.continued lines) := by
  obtain ⟨line, hmem, hs⟩ := h
  cases lines with
  | nil => cases hmem
  | cons first rest =>
    rcases List.mem_cons.mp hmem with rfl | hrest
    · exact head (hs.append_left _) rest
    · exact of_mem (List.mem_cons_of_mem _ hrest) hs

theorem intercalate (h : InLines s lines) (sep : String) : Within s (sep.intercalate lines) := by
  obtain ⟨line, hmem, hs⟩ := h
  induction lines with
  | nil => cases hmem
  | cons first rest ih =>
    cases rest with
    | nil =>
      rw [List.mem_singleton.mp hmem] at hs
      simpa using hs
    | cons second rest =>
      rw [String.intercalate_cons_cons]
      rcases List.mem_cons.mp hmem with rfl | hrest
      · exact (hs.append_right _).append_right _
      · exact (ih hrest).append_left _

end InLines

theorem Within.commaList {s : String} {cs : List Id} {c : Id} {e : Id → String} (hc : c ∈ cs)
    (h : Within s (e c)) : Within s (Glsl.commaList (cs.map e)) :=
  (InLines.of_mem (List.mem_map_of_mem hc) h).intercalate ", "

/-! ## Depths -/

namespace Graph

variable {g : Graph} {i j c : Id}

/-- The text of a node inside a program with some indentation. -/
def textOf (g : Graph) (indent : String) (i : Id) : String := Glsl.exprAt g indent g.textDepth i

theorem IsTree.text_succ (h : g.IsTree) (indent : String) (hj : j ∈ g.live) :
    Glsl.exprAt g indent (g.textDepth + 1) j = g.textOf indent j ∧
      Glsl.linesAt g indent (g.textDepth + 1) j = g.lines indent j := by
  refine Copy.text (Copy.refl g) indent (h.bounded hj) (fun d k hd => ?_) (Nat.le_succ _)
  have := h.unshared.below_lt hj hd
  unfold textDepth
  omega

theorem IsTree.textOf_succ (h : g.IsTree) (indent : String) (hj : j ∈ g.live) :
    g.textOf indent j = Glsl.exprAt g indent (g.textDepth + 1) j :=
  (h.text_succ indent hj).1.symm

theorem IsTree.lines_succ (h : g.IsTree) (indent : String) (hj : j ∈ g.live) :
    g.lines indent j = Glsl.linesAt g indent (g.textDepth + 1) j :=
  (h.text_succ indent hj).2.symm

theorem Unshared.live_of_mem (h : g.Unshared) (hj : j ∈ g.live) (hmem : i ∈ g.descendants j) :
    i ∈ g.live :=
  let ⟨_, hd⟩ := (h.mem_descendants_iff hj).mp hmem
  h.live_of_below hj hd

theorem Unshared.exists_child (h : g.Unshared) (hj : j ∈ g.live) (hmem : i ∈ g.descendants j)
    (hne : j ≠ i) : ∃ c ∈ g.children j, i ∈ g.descendants c := by
  rw [h.descendants_eq hj] at hmem
  rcases List.mem_cons.mp hmem with rfl | hbelow
  · exact absurd rfl hne
  · exact List.mem_flatMap.mp hbelow

/-! ## Lines of their own -/

/-- What a `var` statement in the head of a `for` statement lists. -/
def headParts (g : Graph) (i : Id) : List Id :=
  match g.kind i with
  | .forLoop (some head) .. =>
    match g.kind head with
    | .varDecl ds => ds
    | _ => []
  | _ => []

theorem laterParts_eq (g : Graph) (i : Id) : g.laterParts i = (g.headParts i).tail := by
  unfold laterParts headParts
  cases g.kind i with
  | forLoop init test step body =>
    cases init with
    | none => rfl
    | some head =>
      dsimp only
      cases g.kind head <;> rfl
  | _ => rfl

/-- Functions, loops and declarators begin with a line of their own, but not declarators in the head
of a loop. -/
structure Opens (g : Graph) (i : Id) : Prop where
  kind : (∃ name params body, g.kind i = .function name params body) ∨
    (∃ init test step body, g.kind i = .forLoop init test step body) ∨
    ∃ name init, g.kind i = .declarator name init
  free : ∀ name init, g.kind i = .declarator name init → ∀ a ∈ g.live, i ∉ g.headParts a

namespace Opens

variable (h : g.Opens i)

include h

theorem isStatement : Glsl.isStatement (g.kind i) = true := by
  obtain ⟨_, _, _, hk⟩ | ⟨_, _, _, _, hk⟩ | ⟨_, _, hk⟩ := h.kind <;> rw [hk] <;> rfl

theorem ne_varDecl (ds : List Id) : g.kind i ≠ .varDecl ds := by
  obtain ⟨_, _, _, hk⟩ | ⟨_, _, _, _, hk⟩ | ⟨_, _, hk⟩ := h.kind <;> rw [hk] <;> nofun

theorem ne_block (body : List Id) : g.kind i ≠ .block body := by
  obtain ⟨_, _, _, hk⟩ | ⟨_, _, _, _, hk⟩ | ⟨_, _, hk⟩ := h.kind <;> rw [hk] <;> nofun

theorem ne_number (hg : g.Unshared) (hj : j ∈ g.live) (hmem : i ∈ g.descendants j) (raw : String) :
    g.kind j ≠ .number raw := by
  intro hk
  by_cases hji : j = i
  · have hst := h.isStatement
    rw [← hji, hk] at hst
    cases hst
  · obtain ⟨c, hc, -⟩ := hg.exists_child hj hmem hji
    rw [children, hk] at hc
    cases hc

end Opens

end Graph

/-! ## Expressions -/

/-- An expression shows its parts, but for a number at a known position of a matrix. -/
theorem within_exprAt {g : Graph} {s indent : String} {n : Nat} {j c : Id}
    (hst : Glsl.isStatement (g.kind j) = false) (hc : c ∈ g.children j)
    (hnumber : ∀ raw, g.kind c ≠ .number raw) (h : Within s (Glsl.exprAt g indent n c)) :
    Within s (Glsl.exprAt g indent (n + 1) j) := by
  unfold Glsl.exprAt
  unfold children at hc
  cases hk : g.kind j with
  | program | function | varDecl | declarator | block | exprStmt | ifElse | forLoop | ret
  | discard =>
    rw [hk] at hst
    cases hst
  | ident | this | bool | raw | number =>
    rw [hk] at hc
    cases hc
  | binary op a b =>
    rw [hk] at hc
    obtain rfl | rfl : c = a ∨ c = b := by simpa [Kind.children] using hc
    · exact h.binaryText_left op _
    · exact h.binaryText_right op _
  | assign op a b =>
    rw [hk] at hc
    obtain rfl | rfl : c = a ∨ c = b := by simpa [Kind.children] using hc
    · exact (((h.append_right _).append_right _).append_right _).append_right _
    · exact h.append_left _
  | field a b =>
    rw [hk] at hc
    obtain rfl | rfl : c = a ∨ c = b := by simpa [Kind.children] using hc
    · exact (h.append_right _).append_right _
    · exact h.append_left _
  | unary op a =>
    rw [hk] at hc
    rw [List.mem_singleton.mp hc] at h
    exact h.unaryText op
  | update op leading a =>
    rw [hk] at hc
    rw [List.mem_singleton.mp hc] at h
    exact h.updateText op leading
  | conditional x y z =>
    rw [hk] at hc
    obtain rfl | rfl | rfl : c = x ∨ c = y ∨ c = z := by simpa [Kind.children] using hc
    · exact ((((h.between _ _).append_right _).append_right _).append_right _).append_right _
    · exact ((h.between _ _).append_right _).append_right _
    · exact h.between _ _
  | call callee args =>
    rw [hk] at hc
    rcases List.mem_cons.mp hc with rfl | hargs
    · exact ((h.append_right _).append_right _).append_right _
    · exact ((Within.commaList hargs h).append_left _).append_right _
  | index a b =>
    rw [hk] at hc
    obtain rfl | rfl : c = a ∨ c = b := by simpa [Kind.children] using hc
    · exact h.indexText_target _ _ _
    · have hlit : g.literalIndex? c = none := by
        unfold literalIndex?
        split
        · rename_i raw hraw
          exact absurd hraw (hnumber raw)
        · rfl
      dsimp only
      rw [hlit]
      exact h.indexText_position _ _
  | array elements =>
    rw [hk] at hc
    exact ((Within.commaList hc h).append_left _).append_right _
  | sequence exprs =>
    rw [hk] at hc
    obtain _ | ⟨a, _ | ⟨b, rest⟩⟩ := exprs
    · cases hc
    · rw [List.mem_singleton.mp hc] at h
      exact h
    · exact ((Within.commaList hc h).append_left _).append_right _

/-! ## Statements -/

variable {g : Graph} {i j : Id} {s : String} {e : Id → String} {l : Id → List String}

/-- The printers show the text at and below `j`, wherever `i` is. -/
def Carries (g : Graph) (i : Id) (s : String) (e : Id → String) (l : Id → List String) (j : Id) :
    Prop :=
  ∀ d k, g.Below j d k → i ∈ g.descendants k → Within s (e k) ∧ InLines s (l k)

namespace Carries

theorem expr (h : Carries g i s e l j) (hmem : i ∈ g.descendants j) : Within s (e j) :=
  (h 0 j .refl hmem).1

theorem lines (h : Carries g i s e l j) (hmem : i ∈ g.descendants j) : InLines s (l j) :=
  (h 0 j .refl hmem).2

theorem child {c : Id} (h : Carries g i s e l j) (hc : c ∈ g.children j) : Carries g i s e l c :=
  fun d k hd => h (d + 1) k (hd.cons hc)

section Parts

variable (hg : g.Unshared) (hi : g.Opens i) (hj : j ∈ g.live) (hmem : i ∈ g.descendants j)

include hg hj hmem

theorem untypedText {name : Id} {init : Option Id} (hne : j ≠ i)
    (hk : g.kind j = .declarator name init) (h : ∀ c ∈ g.children j, Carries g i s e l c) :
    Within s (Glsl.untypedText e name init) := by
  obtain ⟨c, hc, hic⟩ := hg.exists_child hj hmem hne
  have hcarry := (h c hc).expr hic
  rw [children, hk] at hc
  unfold Glsl.untypedText
  rcases List.mem_cons.mp hc with rfl | hinit
  · exact hcarry.append_right _
  · rw [Option.mem_toList.mp hinit]
    exact (hcarry.append_left _).append_left _

theorem declaratorText (hne : ∀ name init, g.kind j = .declarator name init → j ≠ i)
    (h : ∀ c ∈ g.children j, Carries g i s e l c)
    (hself : (∀ name init, g.kind j ≠ .declarator name init) → Within s (e j)) :
    Within s (Glsl.declaratorText g e j) := by
  cases hk : g.kind j with
  | declarator name init =>
    rw [Glsl.declaratorText_eq hk]
    exact ((untypedText hg hj hmem (hne name init hk) hk h).append_left _).append_left _
  | _ =>
    unfold Glsl.declaratorText
    rw [hk]
    exact hself (by rw [hk]; intros; exact Kind.noConfusion)

include hi in
theorem initText (h : Carries g i s e l j)
    (hfree : ∀ name init, g.kind i = .declarator name init →
      ∀ ds, g.kind j = .varDecl ds → i ∉ ds)
    (hdecl : ∀ ds, g.kind j = .varDecl ds → ∀ c ∈ ds.tail, i ∈ g.descendants c →
      g.isDeclarator c = true) : Within s (Glsl.initText g e (some j)) := by
  cases hk : g.kind j with
  | varDecl ds =>
    have hne : j ≠ i := fun hji => hi.ne_varDecl ds (hji ▸ hk)
    obtain ⟨c, hc, hic⟩ := hg.exists_child hj hmem hne
    have hcl := hg.child_live hj hc
    have hcarry := h.child hc
    rw [children, hk] at hc
    have hci : ∀ name init, g.kind c = .declarator name init → c ≠ i := by
      rintro name init hkc rfl
      exact hfree name init hkc ds hk hc
    cases ds with
    | nil => cases hc
    | cons first rest =>
      simp only [Glsl.initText, hk, List.map_cons, Glsl.headerText]
      refine InLines.intercalate ?_ ", "
      rcases List.mem_cons.mp hc with rfl | hrest
      · refine InLines.head ?_ _
        exact declaratorText hg hcl hic hci (fun _ hc' => hcarry.child hc') fun _ =>
          hcarry.expr hic
      · have hd := hdecl _ hk c hrest hic
        unfold isDeclarator at hd
        split at hd
        case h_2 => cases hd
        case h_1 name init hkc =>
          rw [List.map_map]
          refine (InLines.of_mem (List.mem_map_of_mem hrest) ?_).tail _
          rw [Function.comp_apply, Glsl.afterSpace_declaratorText hkc]
          exact untypedText hg hcl hic (hci name init hkc) hkc fun _ hc' => hcarry.child hc'
  | _ =>
    simp only [Glsl.initText, hk]
    exact h.expr hmem

omit hg hj in
theorem conditionText (h : Carries g i s e l j) : Within s (Glsl.conditionText g e j) := by
  unfold Glsl.conditionText
  split
  · exact h.expr hmem
  · exact h.expr hmem
  · exact ((h.expr hmem).append_left _).append_right _

include hi in
theorem nestedLines (indent : String) (h : ∀ c ∈ g.children j, Carries g i s e l c)
    (hself : (∀ body, g.kind j ≠ .block body) → InLines s (l j)) :
    InLines s (Glsl.nestedLines g indent l j) := by
  unfold Glsl.nestedLines
  refine InLines.indented ?_ indent
  cases hk : g.kind j with
  | block body =>
    have hne : j ≠ i := fun hji => hi.ne_block body (hji ▸ hk)
    obtain ⟨c, hc, hic⟩ := hg.exists_child hj hmem hne
    have hcarry := (h c hc).lines hic
    rw [children, hk] at hc
    exact .flatMap hc hcarry
  | _ => exact hself (by rw [hk]; intros; exact Kind.noConfusion)

include hi in
theorem bodyLines (indent : String) (h : Carries g i s e l j) :
    InLines s (Glsl.nestedLines g indent l j) :=
  nestedLines hg hi hj hmem indent (fun _ hc => h.child hc) fun _ => h.lines hmem

include hi in
theorem elseLines (indent : String) (h : Carries g i s e l j) :
    InLines s (Glsl.elseLines g indent l (some j)) := by
  unfold Glsl.elseLines
  dsimp only
  split
  · exact (h.lines hmem).continued
  · exact ((bodyLines hg hi hj hmem indent h).append_right _).tail _

include hi in
theorem exprStmtLines (h : Carries g i s e l j) : InLines s (Glsl.exprStmtLines g e j) := by
  unfold Glsl.exprStmtLines
  split
  · rename_i a b rest hk
    have hne : j ≠ i := by
      rintro rfl
      have hst := hi.isStatement
      rw [hk] at hst
      cases hst
    obtain ⟨c, hc, hic⟩ := hg.exists_child hj hmem hne
    have hcarry := (h.child hc).expr hic
    rw [children, hk] at hc
    exact .of_mem (List.mem_map_of_mem hc) (hcarry.append_right ";")
  · exact .head ((h.expr hmem).append_right ";") []

include hi in
theorem functionText (indent : String) (valued : Bool) (hne : j ≠ i)
    (hf : g.isFunction j = true) (h : ∀ c ∈ g.children j, Carries g i s e l c) :
    InLines s (Glsl.functionText g indent e l valued j) := by
  unfold isFunction at hf
  split at hf
  case h_2 => cases hf
  case h_1 name params body hk =>
    obtain ⟨c, hc, hic⟩ := hg.exists_child hj hmem hne
    have hcl := hg.child_live hj hc
    have hcarry := h c hc
    rw [children, hk] at hc
    simp only [Glsl.functionText, hk]
    obtain rfl | hparam | rfl : c = name ∨ c ∈ params ∨ c = body := by
      simpa [Kind.children] using hc
    · exact .head (((((hcarry.expr hic).append_left _).append_right _).append_right
        _).append_right _) _
    · have hshown : Within s (Glsl.paramText g e c) := (hcarry.expr hic).append_left _
      exact .head (((Within.commaList hparam hshown).append_left _).append_right _) _
    · exact ((bodyLines hg hi hcl hic indent hcarry).append_right _).tail _

end Parts

/-! ### One node -/

theorem linesStep {indent : String} {n : Nat} (hg : g.Unshared) (hi : g.Opens i) (hj : j ∈ g.live)
    (hmem : i ∈ g.descendants j) (hne : j ≠ i) (hst : Glsl.isStatement (g.kind j) = true)
    (hheads : g.HeadsDeclare i j)
    (hself : Within s (Glsl.declaratorText g (Glsl.exprAt g indent n) i ++ ";"))
    (h : ∀ c ∈ g.children j, Carries g i s (Glsl.exprAt g indent n) (Glsl.linesAt g indent n) c) :
    InLines s (Glsl.linesAt g indent (n + 1) j) := by
  obtain ⟨c, hc, hic⟩ := hg.exists_child hj hmem hne
  have hcl := hg.child_live hj hc
  have hcarry := h c hc
  have hfunction := functionText hg hi hj hmem indent false hne (h := h)
  have hdeclarator := declaratorText hg hj hmem (fun _ _ _ => hne) h
  have hblock := nestedLines hg hi hj hmem indent h
  unfold Glsl.linesAt
  unfold children at hc
  cases hk : g.kind j with
  | conditional | binary | assign | unary | update | call | field | index | array | ident | this
  | number | bool | sequence | raw =>
    rw [hk] at hst
    cases hst
  | program body =>
    rw [hk] at hc
    exact .flatMap hc (hcarry.lines hic)
  | function => exact hfunction (by simp [isFunction, hk])
  | varDecl ds =>
    rw [hk] at hc
    refine .of_mem (List.mem_map_of_mem hc) ?_
    by_cases hci : c = i
    · subst hci
      exact hself
    · exact (declaratorText hg hcl hic (fun _ _ _ => hci) (fun _ hc' => hcarry.child hc') fun _ =>
        hcarry.expr hic).append_right ";"
  | declarator name init =>
    exact .head ((hdeclarator fun hno => absurd hk (hno name init)).append_right ";") []
  | block body =>
    exact ((hblock fun hno => absurd hk (hno body)).append_right _).tail _
  | exprStmt a =>
    rw [hk] at hc
    rw [List.mem_singleton.mp hc] at hic hcl hcarry
    exact exprStmtLines hg hi hcl hic hcarry
  | ifElse test consequent alternate =>
    rw [hk] at hc
    obtain rfl | rfl | halt : c = test ∨ c = consequent ∨ alternate = some c := by
      simpa [Kind.children] using hc
    · exact .head (((conditionText hic hcarry).append_left _).append_right _) _
    · exact ((bodyLines hg hi hcl hic indent hcarry).append_right _).tail _
    · rw [halt]
      exact ((elseLines hg hi hcl hic indent hcarry).append_left _).tail _
  | forLoop init test step body =>
    rw [hk] at hc
    obtain hinit | htest | hstep | rfl :
        init = some c ∨ test = some c ∨ step = some c ∨ c = body := by
      simpa [Kind.children] using hc
    · have hparts : ∀ ds, g.kind c = .varDecl ds → g.headParts j = ds := fun ds hds => by
        simp only [headParts, hk, hinit, hds]
      have hshown : Within s (Glsl.initText g (Glsl.exprAt g indent n) (some c)) := by
        refine initText hg hi hcl hic hcarry (fun name init hki ds hds => ?_) ?_
        · rw [← hparts ds hds]
          exact hi.free name init hki j hj
        · intro ds hds p hp
          refine hheads j ((hg.mem_descendants_iff hj).mpr ⟨0, .refl⟩) p ?_
          rwa [laterParts_eq, hparts ds hds]
      rw [hinit]
      exact .head (((((hshown.append_left _).append_right _).append_right _).append_right
        _).append_right _ |>.append_right _) _
    · subst htest
      exact .head ((((hcarry.expr hic).append_left _).append_right _).append_right _ |>.append_right
        _) _
    · subst hstep
      exact .head (((hcarry.expr hic).append_left _).append_right _) _
    · exact ((bodyLines hg hi hcl hic indent hcarry).append_right _).tail _
  | ret argument =>
    rw [hk] at hc
    obtain rfl : argument = some c := by simpa [Kind.children] using hc
    exact .head (((hcarry.expr hic).append_left _).append_right _) []
  | discard =>
    rw [hk] at hc
    cases hc

end Carries

/-! ## Whole programs -/

/-- The line that a node begins with inside a program. -/
def Graph.opening (g : Graph) (indent : String) (i : Id) : String := (g.lines indent i).headD ""

section Whole

variable {g : Graph} {i j : Id} (h : g.IsTree) (indent : String)

include h

theorem Graph.IsTree.lines_declarator {name : Id} {init : Option Id} (hi : i ∈ g.live)
    (hk : g.kind i = .declarator name init) :
    g.lines indent i = [Glsl.declaratorText g (g.textOf indent) i ++ ";"] := by
  rw [h.lines_succ indent hi]
  unfold Glsl.linesAt
  simp only [hk]
  rfl

theorem Graph.IsTree.textOf_statement (hi : i ∈ g.live) (hst : Glsl.isStatement (g.kind i) = true) :
    g.textOf indent i = "\n".intercalate (g.lines indent i) := by
  rw [h.textOf_succ indent hi, Glsl.exprAt_of_statement indent _ hst]
  rfl

theorem Graph.IsTree.lines_expression (hi : i ∈ g.live)
    (hst : Glsl.isStatement (g.kind i) = false) :
    g.lines indent i = [g.textOf indent i ++ ";"] := by
  rw [h.lines_succ indent hi, Glsl.linesAt_of_expr indent _ hst]
  rfl

theorem Graph.Opens.opening_mem (hi : g.Opens i) (hl : i ∈ g.live) :
    g.opening indent i ∈ g.lines indent i := by
  have hne : g.lines indent i ≠ [] := by
    rw [h.lines_succ indent hl]
    unfold Glsl.linesAt
    obtain ⟨_, _, _, hk⟩ | ⟨_, _, _, _, hk⟩ | ⟨_, _, hk⟩ := hi.kind
    · simp only [hk, Glsl.functionText]
      exact List.cons_ne_nil _ _
    · simp only [hk]
      exact List.cons_ne_nil _ _
    · simp only [hk]
      exact List.cons_ne_nil _ _
  unfold opening
  obtain ⟨first, rest, hlines⟩ := List.exists_cons_of_ne_nil hne
  rw [hlines]
  exact List.mem_cons_self

theorem Graph.Opens.within_declaratorText (hi : g.Opens i) (hl : i ∈ g.live) :
    Within (g.opening indent i) (Glsl.declaratorText g (g.textOf indent) i ++ ";") := by
  have hmem := hi.opening_mem h indent hl
  have hexpr : Within (g.opening indent i) (g.textOf indent i) := by
    rw [h.textOf_statement indent hl hi.isStatement]
    exact (InLines.of_mem hmem (.refl _)).intercalate "\n"
  obtain ⟨_, _, _, hk⟩ | ⟨_, _, _, _, hk⟩ | ⟨_, _, hk⟩ := hi.kind
  · simp only [Glsl.declaratorText, hk]
    exact hexpr.append_right ";"
  · simp only [Glsl.declaratorText, hk]
    exact hexpr.append_right ";"
  · rw [h.lines_declarator indent hl hk] at hmem
    rw [List.mem_singleton.mp hmem]
    exact .refl _

/-- **The text of a program carries what its nodes begin with.** -/
theorem carries_text (hi : g.Opens i) (hj : j ∈ g.live) (hheads : g.HeadsDeclare i j) :
    Carries g i (g.opening indent i) (g.textOf indent) (g.lines indent) j := by
  have hg := h.unshared
  obtain ⟨b, hb⟩ : ∃ b, ∀ d k, g.Below j d k → d < b := ⟨g.size, fun _ _ => hg.below_lt hj⟩
  induction b generalizing j with
  | zero => exact absurd (hb 0 j .refl) (Nat.not_lt_zero 0)
  | succ b ih =>
    have hchild : ∀ c ∈ g.children j,
        Carries g i (g.opening indent i) (g.textOf indent) (g.lines indent) c := fun c hc =>
      ih (hg.child_live hj hc) (hheads.below hg hj (.step .refl hc)) fun d k hd =>
        Nat.lt_of_succ_lt_succ (hb (d + 1) k (hd.cons hc))
    rintro (_ | d) k hd hmem
    · cases hd
      cases hst : Glsl.isStatement (g.kind j) with
      | false =>
        have hne : j ≠ i := by
          rintro rfl
          rw [hi.isStatement] at hst
          cases hst
        obtain ⟨c, hc, hic⟩ := hg.exists_child hj hmem hne
        have hexpr : Within (g.opening indent i) (g.textOf indent j) := by
          rw [h.textOf_succ indent hj]
          exact within_exprAt hst hc (hi.ne_number hg (hg.child_live hj hc) hic)
            ((hchild c hc).expr hic)
        rw [h.lines_expression indent hj hst]
        exact ⟨hexpr, .head (hexpr.append_right _) _⟩
      | true =>
        have hlines : InLines (g.opening indent i) (g.lines indent j) := by
          by_cases hji : j = i
          · subst hji
            exact .of_mem (hi.opening_mem h indent hj) (.refl _)
          · rw [h.lines_succ indent hj]
            exact Carries.linesStep hg hi hj hmem hji hst hheads
              (hi.within_declaratorText h indent (hg.live_of_mem hj hmem)) hchild
        rw [h.textOf_statement indent hj hst]
        exact ⟨hlines.intercalate "\n", hlines⟩
    · obtain ⟨c, hc, hd⟩ := hd.uncons
      exact hchild c hc d k hd hmem

/-- **A function carries what the nodes in it begin with.** -/
theorem inLines_functionLines {f : Id} (hi : g.Opens i) (hf : f ∈ g.live)
    (hfun : g.isFunction f = true) (hmem : i ∈ g.descendants f) (hne : f ≠ i)
    (hheads : g.HeadsDeclare i f) (valued : Bool) :
    InLines (g.opening indent i) (g.functionLines indent valued f) :=
  Carries.functionText h.unshared hi hf hmem indent valued hne hfun fun _ hc =>
    (carries_text h indent hi hf hheads).child hc

end Whole

end ShaderScript
