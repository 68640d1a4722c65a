import ShaderScript.Call

/-!
# Writing known calls in the shading language

* `Graph.lowerCall`: puts one call of a known function into its form.
* `Graph.lowerCalls`: puts all of them into their forms.
-/

namespace ShaderScript.Graph

variable (g : Graph)

/-- Makes a call the assignment of `plain` to its first argument, or `plain` itself when that cannot
be assigned. -/
def lowerOut (call out : Id) (plain : Kind) : Graph :=
  if g.isAssignable out then
    let (right, g) := g.allocTyped plain (g.ty? call)
    g.replace call (.assign .set out right)
  else g.replace call plain

/-- Puts a call with given arguments into a form. -/
def lowerAs (call : Id) (form : Known.Form) (args : List Id) : Graph :=
  match form, args with
  | .rename target, args =>
    let (callee, g) := g.allocTyped (.ident target) (g.ty? call)
    g.replace call (.call callee args)
  | .binary op, [a, b] => g.replace call (.binary op a b)
  | .unary op, [a] => g.replace call (.unary op a)
  | .argument, [a] => g.replace call (.sequence [a])
  | .assign, [out, a] => g.replace call (.assign .set out a)
  | .outBinary op, [out, a, b] => g.lowerOut call out (.binary op a b)
  | .outUnary op, [out, a] => g.lowerOut call out (.unary op a)
  | .outRename target, out :: args =>
    let (callee, g) := g.allocTyped (.ident target) (g.ty? call)
    g.lowerOut call out (.call callee args)
  | .splice source, _ => g.replace call (.raw source)
  | _, _ => g

/-- Puts a call of a known function into its form. A call with the wrong number of arguments stays
as it is. -/
def lowerCall (call : Id) (e : Known.Entry) : Graph :=
  match g.kind call with
  | .call _ args => if args.length = e.arity then g.lowerAs call e.form args else g
  | _ => g

/-- Puts a call into its form, if it is of a known function. -/
def lowerTarget (p : Id × Target) : Graph :=
  match p.2 with
  | .known e => g.lowerCall p.1 e
  | .user _ => g

/-- Puts all calls of known functions into their forms, in pre-order of the calls. -/
def lowerCalls (calls : CallTable) : Graph := (calls.targets.foldl lowerTarget g).link

end ShaderScript.Graph
