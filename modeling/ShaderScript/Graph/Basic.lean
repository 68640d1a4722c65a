import ShaderScript.Operator
import ShaderScript.Ty

/-!
# Syntax graphs

A program is a numbered collection of syntax nodes. A node refers to its children by number, so a
pass can attach facts to a node, replace what it is, or add nodes beside it, and every other
reference stays valid.

* `Kind`: what a node is, with the numbers of its children.
* `Node`: a kind together with the facts that passes attach to it.
* `Graph`: the nodes and the number of the program node.
* `Graph.alloc`, `Graph.replace`, `Graph.rename`, `Graph.modify`: the edits.
-/

namespace ShaderScript

/-- The number of a node in its graph. -/
abbrev Id := Nat

/-- What a node is. -/
inductive Kind where
  | program (body : List Id)
  | function (name : Id) (params : List Id) (body : Id)
  | varDecl (declarators : List Id)
  | declarator (name : Id) (init : Option Id)
  | block (body : List Id)
  | exprStmt (expr : Id)
  | ifElse (test consequent : Id) (alternate : Option Id)
  | forLoop (init test step : Option Id) (body : Id)
  | ret (argument : Option Id)
  /-- Abandons the current fragment. -/
  | discard
  | conditional (test consequent alternate : Id)
  | binary (op : BinaryOp) (left right : Id)
  | assign (op : AssignOp) (left right : Id)
  | unary (op : UnaryOp) (argument : Id)
  /-- An increment or decrement, written before its argument when `leading`. -/
  | update (op : UpdateOp) (leading : Bool) (argument : Id)
  | call (callee : Id) (args : List Id)
  /-- Access to a part by name: `object.property`. -/
  | field (object property : Id)
  /-- Access to a part by position: `object[property]`. -/
  | index (object property : Id)
  | array (elements : List Id)
  | ident (name : String)
  /-- The receiver of a shader function. -/
  | this
  /-- A number in the spelling of the script. -/
  | number (raw : String)
  | bool (value : Bool)
  | sequence (exprs : List Id)
  /-- Text of the shading language, printed as it stands. -/
  | raw (source : String)
deriving DecidableEq, Inhabited

/-- A syntax node: what it is, and the facts that passes attach to it. -/
structure Node where
  kind : Kind
  /-- The node that holds this one; the program node and loose nodes have none. -/
  parent : Option Id := none
  /-- The type, written once by inference. -/
  ty : Option Ty := none
  /-- The type is a default and rests on no evidence. -/
  guessed : Bool := false
  /-- The largest literal position at which the node is indexed. -/
  topIndex : Option Nat := none
  /-- The type to take when nothing else fixes one. -/
  hint : Option Ty := none
  /-- A parameter that the callee writes. -/
  out : Bool := false
deriving DecidableEq, Inhabited

/-- Numbered syntax nodes with the number of the program node. -/
structure Graph where
  nodes : Array Node
  root : Id
deriving DecidableEq, Inhabited

namespace Graph

variable (g : Graph)

/-- The number of nodes, loose ones included. -/
def size : Nat := g.nodes.size

/-- The node with a number. -/
def node (i : Id) : Node := g.nodes.getD i default

/-- What a node is. -/
def kind (i : Id) : Kind := (g.node i).kind

/-- The type of a node, if it has one. -/
def ty? (i : Id) : Option Ty := (g.node i).ty

/-- The node that holds `i`. -/
def parent? (i : Id) : Option Id := (g.node i).parent

/-- Changes one node. -/
def modify (i : Id) (f : Node → Node) : Graph := { g with nodes := g.nodes.modify i f }

/-- Replaces what a node is and keeps its number and its facts. -/
def replace (i : Id) (k : Kind) : Graph := g.modify i ({ · with kind := k })

/-- Sets the type of a node. -/
def setTy (i : Id) (t : Option Ty) : Graph := g.modify i ({ · with ty := t })

/-- Adds a loose node and returns its number. -/
def alloc (k : Kind) : Id × Graph := (g.size, { g with nodes := g.nodes.push { kind := k } })

/-- Adds a loose node with a type. -/
def allocTyped (k : Kind) (t : Option Ty) : Id × Graph :=
  (g.size, { g with nodes := g.nodes.push { kind := k, ty := t } })

/-! ## What the edits do -/

@[simp] theorem size_modify (i : Id) (f : Node → Node) : (g.modify i f).size = g.size := by
  simp [modify, size]

@[simp] theorem root_modify (i : Id) (f : Node → Node) : (g.modify i f).root = g.root := rfl

theorem node_modify_of_ne {i j : Id} (f : Node → Node) (h : i ≠ j) :
    (g.modify i f).node j = g.node j := by
  simp [modify, node, Array.getElem?_modify, h]

theorem node_modify_self {i : Id} (f : Node → Node) (h : i < g.size) :
    (g.modify i f).node i = f (g.node i) := by
  have h' : i < g.nodes.size := h
  simp [modify, node, Array.getElem_modify, h']

theorem kind_replace_self {i : Id} (k : Kind) (h : i < g.size) : (g.replace i k).kind i = k := by
  simp [kind, replace, node_modify_self g _ h]

theorem kind_replace_of_ne {i j : Id} (k : Kind) (h : i ≠ j) :
    (g.replace i k).kind j = g.kind j := by
  simp [kind, replace, node_modify_of_ne g _ h]

@[simp] theorem size_alloc (k : Kind) : (g.alloc k).2.size = g.size + 1 := by
  simp [alloc, size]

/-! ## Names -/

/-- The name of an identifier. -/
def identName? (i : Id) : Option String :=
  match g.kind i with
  | .ident name => some name
  | _ => none

/-- Renames an identifier; any other node is left alone. -/
def rename (i : Id) (name : String) : Graph :=
  match g.kind i with
  | .ident _ => g.replace i (.ident name)
  | _ => g

/-- Renames every identifier of a list. -/
def renameAll (is : List Id) (name : String) : Graph := is.foldl (fun g i => g.rename i name) g

/-! ## Top-level functions -/

/-- Whether a node is a function declaration. -/
def isFunction (i : Id) : Bool :=
  match g.kind i with
  | .function .. => true
  | _ => false

/-- The statements of the program. -/
def body : List Id :=
  match g.kind g.root with
  | .program body => body
  | _ => []

/-- The top-level functions, in source order. -/
def functions : List Id := g.body.filter g.isFunction

/-- The name of a function declaration. -/
def functionName? (f : Id) : Option String :=
  match g.kind f with
  | .function name _ _ => g.identName? name
  | _ => none

/-- The first top-level function with a name. -/
def findFunction? (name : String) : Option Id :=
  g.functions.find? fun f => g.functionName? f == some name

end Graph

end ShaderScript
