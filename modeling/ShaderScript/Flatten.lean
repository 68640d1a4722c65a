import ShaderScript.Bucket
import ShaderScript.EntryPoint
import ShaderScript.Note
import ShaderScript.Scope

/-!
# Flattening the object model

Every access to an input becomes an identifier of its own, `attributes.position` becoming
`attributes_position`. Variables that the program declares get a mark in front of their names, so
that they never capture an input or a helper. The marks come off again where that is safe.

* `Graph.stripReceivers`: `this.x` becomes `x`.
* `Graph.dropEntryParams`: entry points lose their parameters.
* `Graph.flattenBuckets`: inputs become identifiers.
* `Graph.markOutParams`, `Graph.markLocals`: the marks on parameters and variables.
* `flatten`: all of them in order.
-/

namespace ShaderScript

/-- The mark in front of the name of a declared variable. -/
def localMark : String := "_local_"

/-- The name of a parameter spelled `out`, which is a reserved word. -/
def outParamName : String := "out_param"

namespace Graph

variable (g : Graph)

/-- Makes `this.x` at a node the identifier `x`. -/
def stripReceiver (i : Id) : Graph :=
  match g.kind i with
  | .field object property =>
    match g.kind object, g.identName? property with
    | .this, some name => g.replace i (.ident name)
    | _, _ => g
  | _ => g

/-- Makes every `this.x` the identifier `x`. -/
def stripReceivers : Graph := g.live.foldl stripReceiver g

/-- Drops the parameters of an entry point. -/
def dropParams (s : Graph × List Note) (p : EntryPoint × Id) : Graph × List Note :=
  let (g, notes) := s
  match g.kind p.2 with
  | .function _ [] _ => (g, notes)
  | .function name params body =>
    (g.replace p.2 (.function name [] body),
      notes ++ [.parametersIgnored p.1 (params.filterMap g.identName?)])
  | _ => (g, notes)

/-- Drops the parameters of all entry points. -/
def dropEntryParams (e : EntryPoints) : Graph × List Note := e.toList.foldl dropParams (g, [])

/-- The input that a node accesses. -/
def bucketAccess? (i : Id) : Option (Bucket × String) :=
  match g.kind i with
  | .field object property => do
    let bucket ← Bucket.ofName? (← g.identName? object)
    let field ← g.identName? property
    return (bucket, field)
  | _ => none

/-- Makes an access to an input an identifier and notes the input. -/
def flattenBucket (s : Graph × BucketFields) (i : Id) : Graph × BucketFields :=
  let (g, fields) := s
  match g.bucketAccess? i with
  | some (bucket, field) =>
    (g.replace i (.ident (bucket.flatName field)), fields.insert bucket field)
  | none => (g, fields)

/-- Makes every access to an input an identifier. -/
def flattenBuckets : Graph × BucketFields := g.live.foldl flattenBucket (g, {})

/-- Flags an `out` parameter and renames it where it occurs. -/
def markOutParam (s : Scopes) (param : Id) : Graph :=
  (g.modify param ({ · with out := true })).renameAll (s.occurrences param) outParamName

/-- The parameters of a function that are spelled `out`. -/
def outParams (f : Id) : List Id :=
  match g.kind f with
  | .function _ params _ => params.filter fun p => g.identName? p == some "out"
  | _ => []

/-- Flags and renames the `out` parameters of the top-level functions. -/
def markOutParams (s : Scopes) : Graph :=
  g.functions.foldl (fun g f => (g.outParams f).foldl (fun g p => g.markOutParam s p) g) g

/-- Marks the variable that a declarator declares. -/
def markLocal (s : Scopes) (i : Id) : Graph :=
  match g.kind i with
  | .declarator name _ =>
    match s.bindingOf? name with
    | some b => g.renameAll b.occurrences (localMark ++ b.name)
    | none => g
  | _ => g

/-- Marks every declared variable. -/
def markLocals (s : Scopes) : Graph := g.live.foldl (fun g i => g.markLocal s i) g

end Graph

/-- What flattening gives: the flat program, the inputs it uses, and notes. -/
structure Flattened where
  graph : Graph
  fields : BucketFields
  notes : List Note

/-- Replaces the object model by flat identifiers. -/
def flatten (g : Graph) (e : EntryPoints) : Flattened :=
  let (g, notes) := g.stripReceivers.dropEntryParams e
  let (g, fields) := g.flattenBuckets
  let g := g.link
  let s := Scopes.resolve g
  { graph := (g.markOutParams s).markLocals s, fields, notes }

end ShaderScript
