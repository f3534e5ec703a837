import Atari.Yaml.Scalar

/-!
# Nodes

What a document holds.

* `Yaml.Node`: a scalar, a sequence, a mapping, or a value that stands elsewhere;
* `Yaml.Document`: a value with the values that have names;
* `Yaml.Document.target`: the value that a reference stands for. A document may be small and stand for
  much, so the references that are followed are counted.
-/

namespace Atari

namespace Yaml

/-- A value of a document. -/
inductive Node
  | scalar (tag : Option (List Byte)) (style : Style) (text : String)
  | sequence (items : List Node)
  | mapping (entries : List (Node × Node))
  /-- The value with a number. -/
  | reference (number : Nat)
  deriving Repr, Inhabited

/-- The scalar that stands where nothing is written. -/
def Node.absent : Node := .scalar none .plain ""

mutual

/-- The number of parts of a value: scalars, references, and the starts and the ends of collections. -/
def Node.size : Node → Nat
  | .scalar .. | .reference _ => 1
  | .sequence items => itemSizes items + 2
  | .mapping entries => entrySizes entries + 2

/-- The number of parts of items. -/
def itemSizes : List Node → Nat
  | [] => 0
  | x :: xs => x.size + itemSizes xs

/-- The number of parts of entries. -/
def entrySizes : List (Node × Node) → Nat
  | [] => 0
  | (k, x) :: entries => k.size + x.size + entrySizes entries

end

/-- A value with the values that have names. -/
structure Document where
  root : Node
  /-- The values with names, each with its number. -/
  named : List (Nat × Node)
  /-- The number of references that can be followed. -/
  limit : Nat
  deriving Repr, Inhabited

/-- The number of references that can be followed for each part of a document. -/
def followedPerPart : Nat := 100

/-- A computation on a document, with the number of references that it followed so far. -/
abbrev Lookup := StateT Nat (Except YamlError)

/-- The value that a reference stands for, and every other value itself. -/
def Document.target (d : Document) : Node → Lookup Node
  | .reference number => do
    let followed := (← get) + 1
    if d.limit < followed then throw .repetition
    set followed
    return (d.named.lookup number).getD .absent
  | x => return x

end Yaml

end Atari
