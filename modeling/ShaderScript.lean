import ShaderScript.Compile
import ShaderScript.Estree.Intake
import ShaderScript.Proofs.Infer.Outcome
import ShaderScript.Proofs.Scope.Renaming
import ShaderScript.Proofs.Scope.Partition
import ShaderScript.Proofs.Flatten.Capture
import ShaderScript.Proofs.Glsl.Faithful
import ShaderScript.Proofs.Stage.Closure
import ShaderScript.Proofs.Stage.Order
import ShaderScript.Proofs.Compile.Builtins
import ShaderScript.Proofs.Renumber.Compile
import ShaderScript.Proofs.Infer.Again
import ShaderScript.Proofs.Infer.Uniform
import ShaderScript.Proofs.Infer.WriteOnce
import ShaderScript.Proofs.Infer.Positions
import ShaderScript.Proofs.Compile.Linked
import ShaderScript.Proofs.Lower.Arguments
import ShaderScript.Proofs.Lower.Facts
import ShaderScript.Proofs.Compile.Declared
import ShaderScript.Proofs.Names.Inputs
import ShaderScript.Proofs.Compile.Header
import ShaderScript.Proofs.Compile.Positions
import ShaderScript.Proofs.Glsl.Effects
import ShaderScript.Proofs.Estree.Places
import ShaderScript.Proofs.Estree.Structure
import ShaderScript.Proofs.Flatten.Bindings
import ShaderScript.Proofs.Call.Shadowed
import ShaderScript.Proofs.Lower.Returns
import ShaderScript.Proofs.Names.Distinct
import ShaderScript.Proofs.Names.CaptureFree
import ShaderScript.Proofs.Compile.Reserved
import ShaderScript.Proofs.Compile.Definitions
import ShaderScript.Proofs.Glsl.Introduced
import ShaderScript.Proofs.Estree.Numbering
import ShaderScript.Proofs.Compile.Targets
import ShaderScript.Proofs.Compile.Refused
import ShaderScript.Proofs.Compile.InPlace
import ShaderScript.Proofs.Glsl.Conditions
import ShaderScript.Proofs.Scope.Resolution
import ShaderScript.Proofs.Checked.Basic
import ShaderScript.Proofs.Checked.Call
import ShaderScript.Proofs.Checked.Compile
import ShaderScript.Proofs.Flatten.Objects
import ShaderScript.Proofs.Estree.Shapes
import ShaderScript.Proofs.Infer.Termination
import ShaderScript.Proofs.Glsl.Layout
import ShaderScript.Proofs.Graph.Stack
