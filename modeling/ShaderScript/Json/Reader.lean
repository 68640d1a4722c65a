import ShaderScript.Json.Number

/-!
# Reading JSON

* `Json.parse?`: the value that a text spells, with a limit on nested containers.

Readers take the front off a list of characters and return what is left.
-/

namespace ShaderScript.Json

/-- Reads a value off the front of a text. -/
abbrev Reader (α : Type) := List Char → Option (α × List Char)

/-- The blanks that may stand between tokens. -/
def isBlank (c : Char) : Bool := c == ' ' || c == '\n' || c == '\t' || c == '\r'

/-- Drops blanks at the front. -/
def skipBlank (cs : List Char) : List Char := cs.dropWhile isBlank

/-! ## Strings -/

/-- The value of a hexadecimal digit. -/
def hexDigit? (c : Char) : Option Nat :=
  if c.isDigit then some (c.toNat - '0'.toNat)
  else if 'a' ≤ c ∧ c ≤ 'f' then some (c.toNat - 'a'.toNat + 10)
  else if 'A' ≤ c ∧ c ≤ 'F' then some (c.toNat - 'A'.toNat + 10)
  else none

/-- The value of four hexadecimal digits. -/
def hex4? (a b c d : Char) : Option Nat := do
  return (((← hexDigit? a) * 16 + (← hexDigit? b)) * 16 + (← hexDigit? c)) * 16 + (← hexDigit? d)

/-- The character of an escape with one letter. -/
def escape? : Char → Option Char
  | '"' => some '"'
  | '\\' => some '\\'
  | '/' => some '/'
  | 'b' => some '\x08'
  | 'f' => some '\x0c'
  | 'n' => some '\n'
  | 'r' => some '\r'
  | 't' => some '\t'
  | _ => none

/-- The character of two units, the first and the second half of a pair. -/
def pair? (high low : Nat) : Option Char :=
  if 0xD800 ≤ high ∧ high < 0xDC00 ∧ 0xDC00 ≤ low ∧ low < 0xE000 then
    some (Char.ofNat (0x10000 + (high - 0xD800) * 0x400 + (low - 0xDC00)))
  else none

/-- The rest of a string up to its closing quote, after the characters in `done`, latest first. A
half of a pair may not stand alone, and control characters have to be escaped. -/
def readText (done : List Char) : Reader String
  | '"' :: cs => some (String.ofList done.reverse, cs)
  | '\\' :: 'u' :: a :: b :: c :: d :: cs =>
    match hex4? a b c d with
    | none => none
    | some n =>
      if n < 0xD800 ∨ 0xE000 ≤ n then readText (Char.ofNat n :: done) cs
      else match cs with
        | '\\' :: 'u' :: a :: b :: c :: d :: cs =>
          match (hex4? a b c d).bind (pair? n) with
          | some char => readText (char :: done) cs
          | none => none
        | _ => none
  | '\\' :: c :: cs =>
    match escape? c with
    | some char => readText (char :: done) cs
    | none => none
  | c :: cs => if c.toNat < 0x20 then none else readText (c :: done) cs
  | [] => none

/-! ## Values -/

/-- One or more items up to a closing mark, with commas between them. -/
def items (item : Reader α) (close : Char) : Nat → Reader (List α)
  | 0, _ => none
  | n + 1, cs => do
    let (x, cs) ← item (skipBlank cs)
    match skipBlank cs with
    | ',' :: cs =>
      let (xs, cs) ← items item close n cs
      return (x :: xs, cs)
    | c :: cs => if c = close then some ([x], cs) else none
    | [] => none

/-- Items up to a closing mark. Every item takes a character, which bounds their number. -/
def container (item : Reader α) (close : Char) : Reader (List α) := fun cs =>
  match skipBlank cs with
  | [] => none
  | c :: rest =>
    if c = close then some ([], rest) else items item close (rest.length + 1) (c :: rest)

/-- A key, a colon and a value. -/
def member (value : Reader Json) : Reader (String × Json)
  | '"' :: cs => do
    let (key, cs) ← readText [] cs
    match skipBlank cs with
    | ':' :: cs =>
      let (v, cs) ← value (skipBlank cs)
      return ((key, v), cs)
    | _ => none
  | _ => none

/-- A value that is no container. -/
def scalar : Reader Json
  | 'n' :: 'u' :: 'l' :: 'l' :: cs => some (null, cs)
  | 't' :: 'r' :: 'u' :: 'e' :: cs => some (bool true, cs)
  | 'f' :: 'a' :: 'l' :: 's' :: 'e' :: cs => some (bool false, cs)
  | '"' :: cs => (readText [] cs).map fun (text, cs) => (str text, cs)
  | cs => (Number.read? cs).map fun (n, cs) => (num n, cs)

/-- A value with at most `limit` containers inside each other. -/
def value : Nat → Reader Json
  | 0, cs => scalar cs
  | limit + 1, '[' :: cs => (container (value limit) ']' cs).map fun (vs, cs) => (arr vs, cs)
  | limit + 1, '\x7b' :: cs =>
    (container (member (value limit)) '\x7d' cs).map fun (kvs, cs) => (ofFields kvs, cs)
  | _ + 1, cs => scalar cs

/-- The value that a text spells, with at most `limit` containers inside each other. -/
def parse? (limit : Nat) (text : String) : Option Json :=
  match value limit (skipBlank text.toList) with
  | some (v, rest) => if (skipBlank rest).isEmpty then some v else none
  | none => none

end ShaderScript.Json
