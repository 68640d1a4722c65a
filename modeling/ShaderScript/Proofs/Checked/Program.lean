import ShaderScript.Compile
import ShaderScript.Proofs.Checked.Stage
import ShaderScript.Proofs.Checked.Text

/-!
# Checked programs

The two programs of a shader are put together from the texts of items and from what entry points
give. All of them are nodes of the program that is printed.

* `Checked.entryError?_eq`: an entry point that its stage cannot take.
* `Checked.programText_eq`: the program of a stage.
* **`Checked.emit_eq`**: the two programs.
-/

namespace ShaderScript.Checked

section Definitions

variable (g : Graph) (e : EntryPoints) (o : Options)

/-- The lines of an item. -/
def itemLines : Item → Checked (List String)
  | .library s => return [s.source]
  | .global stmt => lines g o.indent stmt
  | .function f => functionLines g o.indent (e.contains f) f

/-- An item, with a blank line after it. -/
def itemText (item : Item) : Checked String := do
  return "\n".intercalate (← itemLines g e o item) ++ "\n\n"

/-- The call of an entry point. -/
def entryCall (f : Id) : Checked String := do return ((← functionName? g f).getD "") ++ "()"

/-- The type that an entry point gives. -/
def entryType? (f : Id) : Checked (Option Ty) := do
  match ← kind g f with
  | .function name _ _ => ty? g name
  | _ => return none

/-- The value of an entry point with four components. -/
def outputText (f : Id) : Checked String := do
  let width := ((← entryType? g f).bind Ty.width?).getD 4
  let call ← entryCall g f
  return if 4 ≤ width then call
    else "vec4(" ++ Glsl.commaList (call :: (List.replicate (3 - width) "0.0" ++ ["1.0"])) ++ ")"

/-- What the main function of a stage does. -/
def mainLines : Stage → Checked (List String)
  | .vertex => do
    let position := "gl_Position = " ++ (← outputText g e.vertexPosition) ++ ";"
    let sizes ← e.pointSize.toList.mapM fun f => do
      return "gl_PointSize = " ++ (← entryCall g f) ++ ";"
    return position :: sizes
  | .fragment => do return ["gl_FragColor = " ++ (← outputText g e.fragmentColor) ++ ";"]

/-- The main function of a stage. -/
def mainText (stage : Stage) : Checked String := do
  return "void main() \x7b\n" ++
    String.join ((← mainLines g e stage).map fun line => o.indent ++ line ++ "\n") ++ "\x7d\n"

/-- The program of a stage. -/
def programText (stage : Stage) (decls : List FieldDecl) (items : List Item) : Checked String := do
  return "precision " ++ o.precision.name ++ " float;\n\n" ++ Glsl.declarationsText stage decls ++
    String.join (← items.mapM (itemText g e o)) ++ (← mainText g e o stage)

/-- The two programs. -/
def emit (decls : List FieldDecl) (s : Stages) : Checked Shader := do
  return { vertex := ← programText g e o .vertex decls s.vertex,
           fragment := ← programText g e o .fragment decls s.fragment }

/-- The error of an entry point that its stage cannot take. -/
def entryError? (p : EntryPoint × Id) : Checked (Option Error) := do
  match ← kind g p.2 with
  | .function name _ _ =>
    let t := (← ty? g name).getD .float
    return if p.1.takes t then none else some (.invalidEntryPointType p.1 t)
  | _ => return none

end Definitions

variable {g : Graph} {e : EntryPoints} {o : Options} {item : Item} {i : Id} (h : g.Closed)

include h

theorem entryError?_eq {p : EntryPoint × Id} (hp : p.2 < g.size) :
    entryError? g p = .ok (ShaderScript.entryError? g p) := by
  have hc := h.kind_children_lt p.2
  unfold entryError? ShaderScript.entryError?
  rw [kind_eq hp, ok_bind]
  generalize g.kind p.2 = k at hc
  cases k
  case function name params body =>
    dsimp only
    rw [ty?_eq (hc name List.mem_cons_self)]
    rfl
  all_goals rfl

theorem itemText_eq (hitem : InGraph g item) :
    itemText g e o item = .ok (Glsl.itemText g e o item) := by
  have hlines : itemLines g e o item = .ok (Glsl.itemLines g e o item) := by
    cases item with
    | library s => rfl
    | global stmt => exact lines_eq _ h (hitem stmt rfl)
    | function f => exact functionLines_eq _ h (hitem f rfl) _
  unfold itemText
  rw [hlines]
  rfl

theorem entryCall_eq (hi : i < g.size) : entryCall g i = .ok (Glsl.entryCall g i) := by
  unfold entryCall
  rw [functionName?_eq h.toInRange hi]
  rfl

theorem entryType?_eq (hi : i < g.size) : entryType? g i = .ok (Glsl.entryType? g i) := by
  have hc := h.kind_children_lt i
  unfold entryType? Glsl.entryType?
  rw [kind_eq hi, ok_bind]
  generalize g.kind i = k at hc
  cases k
  case function name params body => exact ty?_eq (hc name List.mem_cons_self)
  all_goals rfl

theorem outputText_eq (hi : i < g.size) : outputText g i = .ok (Glsl.outputText g i) := by
  unfold outputText
  rw [entryType?_eq h hi, ok_bind, entryCall_eq h hi]
  rfl

section Stages

variable (he : ∀ p ∈ e.toList, p.2 < g.size)

include he

theorem mainText_eq (stage : Stage) :
    mainText g e o stage = .ok (Glsl.mainText g e o stage) := by
  have hlines : mainLines g e stage = .ok (Glsl.mainLines g e stage) := by
    cases stage with
    | vertex =>
      have hsizes : (e.pointSize.toList.mapM fun f => do
          return "gl_PointSize = " ++ (← entryCall g f) ++ ";") = .ok _ :=
        mapM_ok fun f hf => by
          rw [entryCall_eq h (vertexStage_lt he (List.mem_cons_of_mem _ hf))]
          rfl
      unfold mainLines
      rw [outputText_eq h (vertexStage_lt he List.mem_cons_self), ok_bind, hsizes]
      rfl
    | fragment =>
      unfold mainLines
      rw [outputText_eq h (fragmentStage_lt he List.mem_cons_self)]
      rfl
  unfold mainText
  rw [hlines]
  rfl

theorem programText_eq (stage : Stage) (decls : List FieldDecl) {items : List Item}
    (hitems : ∀ item ∈ items, InGraph g item) :
    programText g e o stage decls items = .ok (Glsl.programText g e o stage decls items) := by
  unfold programText
  rw [mapM_ok fun item hitem => itemText_eq h (hitems item hitem), ok_bind, mainText_eq h he]
  rfl

/-- **No step of printing the two programs fails.** -/
theorem emit_eq (decls : List FieldDecl) {s : Stages} (hs : ∀ item ∈ s.items, InGraph g item) :
    emit g e o decls s = .ok (ShaderScript.emit g e o decls s) := by
  unfold emit
  rw [programText_eq h he _ _ fun item hi => hs item (List.mem_append_left _ hi), ok_bind,
    programText_eq h he _ _ fun item hi => hs item (List.mem_append_right _ hi)]
  rfl

end Stages

end ShaderScript.Checked
