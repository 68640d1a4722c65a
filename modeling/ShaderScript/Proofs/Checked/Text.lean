import ShaderScript.Glsl.Text
import ShaderScript.Proofs.Checked.Walk

/-!
# Checked text

The text of a node is put together from the texts of nodes below it. The positions in a matrix are
counted with divisions, and the dimension of a matrix is never zero.

* `Checked.exprAt`, `Checked.linesAt`: the text of an expression and the lines of a statement.
* `Checked.exprAt_eq`, `Checked.linesAt_eq`: no step of either fails in a closed graph.
* **`Checked.render_eq`**, `Checked.lines_eq`, `Checked.functionLines_eq`: the text of a whole node.
-/

namespace ShaderScript.Checked

variable (g : Graph) (indent : String)

/-- The quotient and the remainder of a division. -/
def divide (k n : Nat) : Checked (Nat × Nat) :=
  if n = 0 then .error .zeroDivisor else .ok (k / n, k % n)

/-- The access to a position, with the divisions that a matrix asks for. -/
def indexText (dimension : Option Nat) (literal : Option Nat) (target position : String) :
    Checked String :=
  match dimension, literal with
  | some n, some k => do
    let (column, row) ← divide k n
    return target ++ "[" ++ toString column ++ "][" ++ toString row ++ "]"
  | dimension, literal => return Glsl.indexText dimension literal target position

/-- The type under which a node is declared. -/
def declaredType (i : Id) : Checked String := do return ((← ty? g i).getD .float).name

/-- A declarator with its type. -/
def declaratorText (expr : Id → Checked String) (d : Id) : Checked String := do
  match ← kind g d with
  | .declarator name none => return (← declaredType g name) ++ " " ++ (← expr name)
  | .declarator name (some init) =>
    return (← declaredType g name) ++ " " ++ (← expr name) ++ " = " ++ (← expr init)
  | _ => expr d

/-- What stands first in the head of a `for` statement. -/
def initText (expr : Id → Checked String) : Option Id → Checked String
  | none => return ""
  | some i => do
    match ← kind g i with
    | .varDecl ds => return Glsl.headerText (← ds.mapM (declaratorText g expr))
    | _ => expr i

/-- A condition in one pair of parentheses. -/
def conditionText (expr : Id → Checked String) (test : Id) : Checked String := do
  match ← kind g test with
  | .binary .. | .conditional .. => expr test
  | _ => return "(" ++ (← expr test) ++ ")"

/-- A parameter with its type. -/
def paramText (expr : Id → Checked String) (p : Id) : Checked String := do
  return (if (← node g p).out then "out " else "") ++ (← declaredType g p) ++ " " ++ (← expr p)

/-- The lines of a body, one step further in. -/
def nestedLines (lines : Id → Checked (List String)) (body : Id) : Checked (List String) := do
  match ← kind g body with
  | .block statements => return (← flatMap lines statements).map (indent ++ ·)
  | _ => return (← lines body).map (indent ++ ·)

/-- The type of what a function gives. -/
def resultText (valued : Bool) (f name : Id) : Checked String := do
  if valued then declaredType g name
  else if ← returnsValue g f then declaredType g name
  else return "void"

/-- The lines of a function declaration. -/
def functionText (expr : Id → Checked String) (lines : Id → Checked (List String)) (valued : Bool)
    (f : Id) : Checked (List String) := do
  match ← kind g f with
  | .function name params body =>
    let head := (← resultText g valued f name) ++ " " ++ (← expr name) ++ "(" ++
      Glsl.commaList (← params.mapM (paramText g expr)) ++ ") \x7b"
    return head :: ((← nestedLines g indent lines body) ++ ["\x7d"])
  | _ => return []

/-- The lines that follow the first branch of an `if` statement. -/
def elseLines (lines : Id → Checked (List String)) : Option Id → Checked (List String)
  | none => return ["\x7d"]
  | some alternate => do
    match ← kind g alternate with
    | .ifElse .. => return Glsl.continued (← lines alternate)
    | _ => return "\x7d else \x7b" :: ((← nestedLines g indent lines alternate) ++ ["\x7d"])

/-- An expression statement; each part of a sequence has a line of its own. -/
def exprStmtLines (expr : Id → Checked String) (e : Id) : Checked (List String) := do
  match ← kind g e with
  | .sequence (a :: b :: rest) => (a :: b :: rest).mapM fun e => do return (← expr e) ++ ";"
  | _ => return [(← expr e) ++ ";"]

/-- The text of an expression that may be missing. -/
def optionalText (expr : Id → Checked String) : Option Id → Checked String
  | none => return ""
  | some e => expr e

mutual

/-- The text of a node, to a depth. -/
def exprAt : Nat → Id → Checked String
  | 0, _ => return ""
  | n + 1, i => do
    match ← kind g i with
    | .ident name => return name
    | .this => return "this"
    | .bool value => return if value then "true" else "false"
    | .number raw => return Glsl.numberText raw (← ty? g i)
    | .binary op left right => return Glsl.binaryText op (← exprAt n left) (← exprAt n right)
    | .assign op left right =>
      return (← exprAt n left) ++ " " ++ op.glsl ++ " " ++ (← exprAt n right)
    | .unary op argument => return Glsl.unaryText op (← exprAt n argument)
    | .update op leading argument => return Glsl.updateText op leading (← exprAt n argument)
    | .conditional test consequent alternate =>
      return "(" ++ (← exprAt n test) ++ " ? " ++ (← exprAt n consequent) ++ " : " ++
        (← exprAt n alternate) ++ ")"
    | .call callee args =>
      return (← exprAt n callee) ++ "(" ++ Glsl.commaList (← args.mapM (exprAt n)) ++ ")"
    | .field object property => return (← exprAt n object) ++ "." ++ (← exprAt n property)
    | .index object property =>
      indexText ((← ty? g object).bind Ty.dimension?) (← literalIndex? g property)
        (← exprAt n object) (← exprAt n property)
    | .array elements =>
      return Glsl.constructorName (← ty? g i) elements.length ++ "(" ++
        Glsl.commaList (← elements.mapM (exprAt n)) ++ ")"
    | .sequence [e] => exprAt n e
    | .sequence exprs => return "(" ++ Glsl.commaList (← exprs.mapM (exprAt n)) ++ ")"
    | .raw source => return source
    | .program _ | .function .. | .varDecl _ | .declarator .. | .block _ | .exprStmt _ | .ifElse ..
    | .forLoop .. | .ret _ | .discard => return "\n".intercalate (← linesAt n i)

/-- The lines of a statement, to a depth. -/
def linesAt : Nat → Id → Checked (List String)
  | 0, _ => return []
  | n + 1, i => do
    match ← kind g i with
    | .varDecl ds => ds.mapM fun d => do return (← declaratorText g (exprAt n) d) ++ ";"
    | .declarator .. => return [(← declaratorText g (exprAt n) i) ++ ";"]
    | .exprStmt e => exprStmtLines g (exprAt n) e
    | .ret none => return ["return;"]
    | .ret (some argument) => return ["return " ++ (← exprAt n argument) ++ ";"]
    | .discard => return ["discard;"]
    | .block _ => return "\x7b" :: ((← nestedLines g indent (linesAt n) i) ++ ["\x7d"])
    | .ifElse test consequent alternate =>
      return ("if " ++ (← conditionText g (exprAt n) test) ++ " \x7b") ::
        ((← nestedLines g indent (linesAt n) consequent) ++
          (← elseLines g indent (linesAt n) alternate))
    | .forLoop init test step body =>
      return ("for (" ++ (← initText g (exprAt n) init) ++ "; " ++
          (← optionalText (exprAt n) test) ++ "; " ++ (← optionalText (exprAt n) step) ++ ") \x7b") ::
        ((← nestedLines g indent (linesAt n) body) ++ ["\x7d"])
    | .function .. => functionText g indent (exprAt n) (linesAt n) false i
    | .program body => flatMap (linesAt n) body
    | _ => return [(← exprAt n i) ++ ";"]

end

/-- The text of any node, as it stands in a program. -/
def render (i : Id) : Checked String := exprAt g "    " g.textDepth i

/-- The lines of a statement. -/
def lines (i : Id) : Checked (List String) := linesAt g indent g.textDepth i

/-- The lines of a function declaration, with a type when `valued`. -/
def functionLines (valued : Bool) (f : Id) : Checked (List String) :=
  functionText g indent (exprAt g indent g.textDepth) (linesAt g indent g.textDepth) valued f

/-! ## No step fails -/

section Parts

variable {g indent} (h : g.Closed) {i : Id} {expr' : Id → Checked String} {expr : Id → String}
  {lines' : Id → Checked (List String)} {lines : Id → List String}
  (he : ∀ j < g.size, expr' j = .ok (expr j)) (hl : ∀ j < g.size, lines' j = .ok (lines j))

omit h he hl in
theorem indexText_eq (t : Option Ty) (literal : Option Nat) (target position : String) :
    indexText (t.bind Ty.dimension?) literal target position =
      .ok (Glsl.indexText (t.bind Ty.dimension?) literal target position) := by
  cases hn : t.bind Ty.dimension? with
  | none => rfl
  | some n =>
    cases literal with
    | none => rfl
    | some k =>
      have hpos : n ≠ 0 := by
        obtain ⟨t, -, hn⟩ := Option.bind_eq_some_iff.mp hn
        rintro rfl
        cases t <;> cases hn
      have hdivide : divide k n = .ok (k / n, k % n) := if_neg hpos
      unfold indexText
      dsimp only
      rw [hdivide]
      rfl

omit h he hl in
theorem declaredType_eq (hi : i < g.size) : declaredType g i = .ok (Glsl.declaredType g i) := by
  unfold declaredType
  rw [ty?_eq hi]
  rfl

include h he in
theorem declaratorText_eq (hi : i < g.size) :
    declaratorText g expr' i = .ok (Glsl.declaratorText g expr i) := by
  have hc := h.kind_children_lt i
  unfold declaratorText Glsl.declaratorText
  rw [kind_eq hi, ok_bind]
  generalize g.kind i = k at hc
  cases k
  case declarator name init =>
    have hname := hc name List.mem_cons_self
    cases init with
    | none =>
      dsimp only
      rw [declaredType_eq hname, he name hname]
      rfl
    | some init =>
      dsimp only
      rw [declaredType_eq hname, he name hname, he init (hc init (by simp [Kind.children]))]
      rfl
  all_goals exact he i hi

include h he in
theorem initText_eq {init : Option Id} (hi : ∀ i, init = some i → i < g.size) :
    initText g expr' init = .ok (Glsl.initText g expr init) := by
  cases init with
  | none => rfl
  | some i =>
    have hc := h.kind_children_lt i
    unfold initText Glsl.initText
    dsimp only
    rw [kind_eq (hi i rfl), ok_bind]
    generalize g.kind i = k at hc
    cases k
    case varDecl ds =>
      have hds : ds.mapM (declaratorText g expr') = .ok (ds.map (Glsl.declaratorText g expr)) :=
        mapM_ok fun d hd => declaratorText_eq h he (hc d hd)
      dsimp only
      rw [hds]
      rfl
    all_goals exact he i (hi i rfl)

include he in
theorem conditionText_eq (hi : i < g.size) :
    conditionText g expr' i = .ok (Glsl.conditionText g expr i) := by
  unfold conditionText Glsl.conditionText
  rw [kind_eq hi, ok_bind, he i hi]
  cases g.kind i <;> rfl

include he in
theorem paramText_eq (hi : i < g.size) : paramText g expr' i = .ok (Glsl.paramText g expr i) := by
  unfold paramText
  rw [node_eq hi, ok_bind, declaredType_eq hi, ok_bind, he i hi]
  rfl

include h hl in
theorem nestedLines_eq (hi : i < g.size) :
    nestedLines g indent lines' i = .ok (Glsl.nestedLines g indent lines i) := by
  have hc := h.kind_children_lt i
  unfold nestedLines Glsl.nestedLines
  rw [kind_eq hi, ok_bind]
  generalize g.kind i = k at hc
  cases k
  case block statements =>
    have hlines : flatMap lines' statements = .ok (statements.flatMap lines) :=
      flatMap_ok fun s hs => hl s (hc s hs)
    dsimp only
    rw [hlines]
    rfl
  all_goals
    dsimp only
    rw [hl i hi]
    rfl

include h in
theorem resultText_eq (valued : Bool) {name : Id} (hi : i < g.size) (hname : name < g.size) :
    resultText g valued i name =
      .ok (if valued || g.returnsValue i then Glsl.declaredType g name else "void") := by
  unfold resultText
  rw [declaredType_eq hname, returnsValue_eq h hi]
  cases valued <;> cases g.returnsValue i <;> rfl

include h he hl in
theorem functionText_eq (valued : Bool) (hi : i < g.size) :
    functionText g indent expr' lines' valued i =
      .ok (Glsl.functionText g indent expr lines valued i) := by
  have hc := h.kind_children_lt i
  unfold functionText Glsl.functionText
  rw [kind_eq hi, ok_bind]
  generalize g.kind i = k at hc
  cases k
  case function name params body =>
    have hname := hc name List.mem_cons_self
    have hbody := hc body (by simp [Kind.children])
    have hparams : params.mapM (paramText g expr') = .ok (params.map (Glsl.paramText g expr)) :=
      mapM_ok fun p hp => paramText_eq he (hc p (by simp [Kind.children, hp]))
    dsimp only
    rw [resultText_eq h valued hi hname, he name hname, hparams, nestedLines_eq h hl hbody]
    rfl
  all_goals rfl

include h hl in
theorem elseLines_eq {alternate : Option Id} (hi : ∀ i, alternate = some i → i < g.size) :
    elseLines g indent lines' alternate = .ok (Glsl.elseLines g indent lines alternate) := by
  cases alternate with
  | none => rfl
  | some i =>
    unfold elseLines Glsl.elseLines
    dsimp only
    rw [kind_eq (hi i rfl), ok_bind, hl i (hi i rfl), nestedLines_eq h hl (hi i rfl)]
    cases g.kind i <;> rfl

include h he in
theorem exprStmtLines_eq (hi : i < g.size) :
    exprStmtLines g expr' i = .ok (Glsl.exprStmtLines g expr i) := by
  have hc := h.kind_children_lt i
  unfold exprStmtLines Glsl.exprStmtLines
  rw [kind_eq hi, ok_bind, he i hi]
  generalize g.kind i = k at hc
  cases k
  case sequence exprs =>
    rcases exprs with _ | ⟨a, _ | ⟨b, rest⟩⟩
    · rfl
    · rfl
    · refine mapM_ok fun e hmem => ?_
      rw [he e (hc e hmem)]
      rfl
  all_goals rfl

include he in
theorem optionalText_eq {e : Option Id} (hi : ∀ i, e = some i → i < g.size) :
    optionalText expr' e = .ok ((e.map expr).getD "") := by
  cases e with
  | none => rfl
  | some i => exact he i (hi i rfl)

end Parts

section Whole

variable {g} (h : g.Closed)

include h

theorem exprAt_succ {n : Nat} (he : ∀ j < g.size, exprAt g indent n j = .ok (Glsl.exprAt g indent n j))
    (hl : ∀ j < g.size, linesAt g indent n j = .ok (Glsl.linesAt g indent n j)) {i : Id}
    (hi : i < g.size) : exprAt g indent (n + 1) i = .ok (Glsl.exprAt g indent (n + 1) i) := by
  have hc := h.kind_children_lt i
  have hlist : ∀ is : List Id, (∀ j ∈ is, j < g.size) →
      is.mapM (exprAt g indent n) = .ok (is.map (Glsl.exprAt g indent n)) := fun is his =>
    mapM_ok fun j hj => he j (his j hj)
  unfold exprAt Glsl.exprAt
  rw [kind_eq hi, ok_bind, ty?_eq hi]
  generalize g.kind i = k at hc
  simp only [Kind.children] at hc
  cases k
  case binary op l r | assign op l r =>
    dsimp only
    rw [he l (hc l (by simp)), he r (hc r (by simp))]
    rfl
  case unary op a | update op leading a =>
    dsimp only
    rw [he a (hc a (by simp))]
    rfl
  case conditional t c a =>
    dsimp only
    rw [he t (hc t (by simp)), he c (hc c (by simp)), he a (hc a (by simp))]
    rfl
  case call callee args =>
    dsimp only
    rw [he callee (hc callee (by simp)), hlist args fun j hj => hc j (by simp [hj])]
    rfl
  case field o p =>
    dsimp only
    rw [he o (hc o (by simp)), he p (hc p (by simp))]
    rfl
  case index o p =>
    have ho := hc o (by simp)
    have hp := hc p (by simp)
    dsimp only
    rw [ty?_eq ho, ok_bind, literalIndex?_eq hp, ok_bind, he o ho, ok_bind, he p hp, ok_bind]
    exact indexText_eq _ _ _ _
  case array elements =>
    dsimp only
    rw [hlist elements fun j hj => hc j hj]
    rfl
  case sequence exprs =>
    have hexprs := hlist exprs fun j hj => hc j hj
    rcases exprs with _ | ⟨a, _ | ⟨b, rest⟩⟩
    · rfl
    · exact he a (hc a (by simp))
    · dsimp only
      rw [hexprs]
      rfl
  case ident | this | number | bool | raw => rfl
  all_goals
    dsimp only
    rw [hl i hi]
    rfl

theorem linesAt_succ {n : Nat} (he : ∀ j < g.size, exprAt g indent n j = .ok (Glsl.exprAt g indent n j))
    (hl : ∀ j < g.size, linesAt g indent n j = .ok (Glsl.linesAt g indent n j)) {i : Id}
    (hi : i < g.size) : linesAt g indent (n + 1) i = .ok (Glsl.linesAt g indent (n + 1) i) := by
  have hc := h.kind_children_lt i
  have hdeclarator : ∀ d < g.size, declaratorText g (exprAt g indent n) d =
      .ok (Glsl.declaratorText g (Glsl.exprAt g indent n) d) := fun d hd =>
    declaratorText_eq h he hd
  have hnested : ∀ b < g.size, nestedLines g indent (linesAt g indent n) b =
      .ok (Glsl.nestedLines g indent (Glsl.linesAt g indent n) b) := fun b hb =>
    nestedLines_eq h hl hb
  have hfunction : functionText g indent (exprAt g indent n) (linesAt g indent n) false i =
      .ok (Glsl.functionText g indent (Glsl.exprAt g indent n) (Glsl.linesAt g indent n) false i) :=
    functionText_eq h he hl false hi
  unfold linesAt Glsl.linesAt
  rw [kind_eq hi, ok_bind]
  generalize g.kind i = k at hc
  simp only [Kind.children] at hc
  cases k
  case varDecl ds =>
    refine mapM_ok fun d hd => ?_
    rw [hdeclarator d (hc d hd)]
    rfl
  case declarator =>
    dsimp only
    rw [hdeclarator i hi]
    rfl
  case exprStmt e => exact exprStmtLines_eq h he (hc e (by simp))
  case ret argument =>
    cases argument with
    | none => rfl
    | some a =>
      dsimp only
      rw [he a (hc a (by simp))]
      rfl
  case discard => rfl
  case block =>
    dsimp only
    rw [hnested i hi]
    rfl
  case ifElse t c a =>
    dsimp only
    rw [conditionText_eq he (hc t (by simp)), hnested c (hc c (by simp)),
      elseLines_eq h hl fun j hj => hc j (by simp [hj])]
    rfl
  case forLoop init test step body =>
    dsimp only
    rw [initText_eq h he fun j hj => hc j (by simp [hj]),
      optionalText_eq he fun j hj => hc j (by simp [hj]),
      optionalText_eq he fun j hj => hc j (by simp [hj]), hnested body (hc body (by simp))]
    rfl
  case function => exact hfunction
  case program body => exact flatMap_ok fun s hs => hl s (hc s hs)
  all_goals
    dsimp only
    rw [he i hi]
    rfl

/-- **No step of a text fails**, to any depth. -/
theorem exprAt_eq_and_linesAt_eq (n : Nat) :
    (∀ i < g.size, exprAt g indent n i = .ok (Glsl.exprAt g indent n i)) ∧
      ∀ i < g.size, linesAt g indent n i = .ok (Glsl.linesAt g indent n i) := by
  induction n with
  | zero => exact ⟨fun _ _ => rfl, fun _ _ => rfl⟩
  | succ n ih =>
    exact ⟨fun i hi => exprAt_succ indent h ih.1 ih.2 hi, fun i hi => linesAt_succ indent h ih.1 ih.2 hi⟩

variable {i : Id} (hi : i < g.size)

include hi

theorem render_eq : render g i = .ok (g.render i) :=
  (exprAt_eq_and_linesAt_eq _ h _).1 i hi

theorem lines_eq : lines g indent i = .ok (g.lines indent i) :=
  (exprAt_eq_and_linesAt_eq _ h _).2 i hi

theorem functionLines_eq (valued : Bool) :
    functionLines g indent valued i = .ok (g.functionLines indent valued i) :=
  functionText_eq h (exprAt_eq_and_linesAt_eq _ h _).1 (exprAt_eq_and_linesAt_eq _ h _).2 valued hi

end Whole

end ShaderScript.Checked
