import ShaderScript.Graph.Walk

/-!
# Input buckets

A shader function reads its inputs through three objects: attributes, varyings and uniforms. The
shading language has one flat declaration for each input instead.

* `Bucket`: the three objects.
* `BucketFields`: the inputs that a program uses, bucket by bucket.
* `FieldDecl`: the declaration of one input.
* `BucketFields.declarations`: the declarations with the types that inference settled on.
-/

namespace ShaderScript

/-- An object through which a shader function reads its inputs. -/
inductive Bucket where
  | attributes
  | varyings
  | uniforms
deriving DecidableEq, Inhabited

namespace Bucket

/-- The buckets, in the order in which their inputs are declared. -/
def all : List Bucket := [attributes, varyings, uniforms]

/-- The name of the object. -/
def name : Bucket → String
  | attributes => "attributes"
  | varyings => "varyings"
  | uniforms => "uniforms"

/-- What stands before a field in its flat name. -/
def stem (b : Bucket) : String := b.name ++ "_"

/-- The storage qualifier of a declaration. -/
def qualifier : Bucket → String
  | attributes => "attribute"
  | varyings => "varying"
  | uniforms => "uniform"

/-- The bucket with a name. -/
def ofName? (s : String) : Option Bucket := all.find? fun b => b.name == s

/-- The flat name of a field. -/
def flatName (b : Bucket) (field : String) : String := b.stem ++ field

end Bucket

/-- One input as the shader declares it. -/
structure FieldDecl where
  bucket : Bucket
  field : String
  /-- The identifier that stands for the input. -/
  name : String
  ty : Ty
deriving DecidableEq, Inhabited

/-- The inputs that a program uses, in order of first use. -/
structure BucketFields where
  used : List (Bucket × String) := []
deriving DecidableEq, Inhabited

namespace BucketFields

variable (fs : BucketFields)

/-- Adds an input that is not there yet. -/
def insert (b : Bucket) (field : String) : BucketFields :=
  if fs.used.contains (b, field) then fs else ⟨fs.used ++ [(b, field)]⟩

/-- The inputs of one bucket, in order of first use. -/
def get (b : Bucket) : List String := (fs.used.filter fun p => p.1 == b).map Prod.snd

/-- All inputs, bucket by bucket. -/
def toList : List (Bucket × String) := Bucket.all.flatMap fun b => (fs.get b).map fun f => (b, f)

/-- The number of buckets with a field of this name. -/
def bucketCount (field : String) : Nat :=
  (Bucket.all.filter fun b => (fs.get b).contains field).length

/-- The type of the first identifier with a name that has one. -/
def typeOfName (g : Graph) (name : String) : Ty :=
  (g.live.findSome? fun i => if g.identName? i == some name then g.ty? i else none).getD .float

/-- The declarations of all inputs, `float` where inference found no type. -/
def declarations (g : Graph) : List FieldDecl :=
  fs.toList.map fun (bucket, field) =>
    let name := bucket.flatName field
    { bucket, field, name, ty := typeOfName g name }

end BucketFields

end ShaderScript
