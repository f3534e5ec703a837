import Atari.MachineFile.Basic
import Atari.Yaml.Document

/-!
# Fields of a document

Documents as machine files. A field that is null counts as missing, and unknown fields are passed
over. A text is taken as it is written, whatever it looks like; a number is never quoted.

* `Yaml.Document.text`, `Yaml.Document.count`, `Yaml.Document.list`, `Yaml.Document.fields`: a value
  of each kind;
* `MachineFile.parse`: the machine file of a text.
-/

namespace Atari

namespace Yaml

/-- The largest count that can be written. -/
def maxCount : Nat := 0xFFFFFFFFFFFFFFFF

/-- The number of some digits. -/
def digits? (base : Nat) (cs : List Char) : Option Nat :=
  if cs = [] then none
  else cs.foldlM (fun n c => do
    let d ← hexValue? c
    if d < base then some (n * base + d) else none) 0

/-- The number that a text stands for: decimal without zeros in front, or in another base behind its
mark. A plus sign can stand in front. -/
def number? (cs : List Char) : Option Nat :=
  match if cs.head? = some '+' then cs.drop 1 else cs with
  | '0' :: 'x' :: cs => digits? 16 cs
  | '0' :: 'o' :: cs => digits? 8 cs
  | '0' :: 'b' :: cs => digits? 2 cs
  | '0' :: _ :: _ => none
  | cs => digits? 10 cs

namespace Document

variable (d : Document)

/-- A text. -/
def text (x : Node) : Lookup String := do
  match ← d.target x with
  | .scalar _ _ s => return s
  | _ => throw (.expected "a text")

/-- A number of things. Only a tag makes a number of a scalar on lines of its own. -/
def count (x : Node) : Lookup Nat := do
  match ← d.target x with
  | .scalar tag style s =>
    unless style = .plain ∨ style = .literal ∧ tag = some (coreTag "int") do throw (.expected "a count")
    match number? s.toList with
    | some n => if n ≤ maxCount then return n else throw (.expected "a count")
    | none => throw (.expected "a count")
  | _ => throw (.expected "a count")

/-- A list of values; where nothing is written there are none. -/
def list {α : Type} (read : Node → Lookup α) (x : Node) : Lookup (List α) := do
  match ← d.target x with
  | .sequence items => items.mapM read
  | .scalar _ .plain "" => return []
  | _ => throw (.expected "a list")

/-- Fields with their values; where nothing is written there are none. -/
def fields (x : Node) : Lookup (List (String × Node)) := do
  match ← d.target x with
  | .mapping entries => entries.mapM fun (k, x) => return (← d.text k, x)
  | .scalar _ .plain "" => return []
  | _ => throw (.expected "fields")

end Document

/-- Whether a value stands for the lack of one. Only plain scalars do; with the tag that says so, no
other text is possible. -/
def Node.isNull : Node → Except YamlError Bool
  | .scalar tag .plain s =>
    let isNull := ["~", "null", "Null", "NULL"].contains s
    match tag with
    | none => .ok (s = "" || isNull)
    | some tag =>
      if tag ≠ coreTag "null" then .ok false
      else if isNull then .ok true
      else .error (.expected "nothing")
  | _ => .ok false

/-- The value of a field. -/
def field? (fields : List (String × Node)) (name : String) : Except YamlError (Option Node) :=
  match fields.filter (·.1 = name) with
  | [] => .ok none
  | [(_, x)] => .ok (some x)
  | _ => .error (.duplicate name)

/-- The value of a field that must be there. -/
def required {α : Type} (fields : List (String × Node)) (name : String) (read : Node → Lookup α) :
    Lookup α := do
  match ← field? fields name with
  | some x => read x
  | none => throw (.missing name)

/-- The value of a field that can be missing. -/
def Document.optional {α : Type} (d : Document) (fields : List (String × Node)) (name : String)
    (read : Node → Lookup α) : Lookup (Option α) := do
  match ← field? fields name with
  | some x =>
    let x ← d.target x
    if ← x.isNull then return none else return some (← read x)
  | none => return none

end Yaml

open Yaml

def Source.ofNode (d : Document) (x : Node) : Lookup Source := do
  let fields ← d.fields x
  return ⟨← required fields "file" d.text, ← d.optional fields "address" d.text⟩

/-- A part of memory to be shown. -/
def DumpRequest.ofNode (d : Document) (x : Node) : Lookup DumpRequest := do
  let fields ← d.fields x
  return ⟨← required fields "address" d.text, ← required fields "length" d.count⟩

namespace MachineFile

/-- The number of frames of a display. -/
def framesOfNode (d : Document) (x : Node) : Lookup Nat := do
  required (← d.fields x) "frames" d.count

/-- The machine file of a document. -/
def ofDocument (d : Document) : Lookup MachineFile := do
  let fields ← d.fields d.root
  return {
    name := ← d.optional fields "name" d.text
    sources := ← d.optional fields "segments" (d.list (Source.ofNode d))
    start := ← d.optional fields "start" d.text
    breakpoints := ← d.optional fields "breakpoints" (d.list d.text)
    maxSteps := ← d.optional fields "max_steps" d.count
    frames := ← d.optional fields "display" (framesOfNode d)
    dumps := ← d.optional fields "dumps" (d.list (DumpRequest.ofNode d))
    includes := ← d.optional fields "configs" (d.list d.text) }

/-- The machine file of a text; an empty text has no fields. -/
def parse (text : String) : Except YamlError MachineFile := do
  match ← Yaml.parse text with
  | some d => (ofDocument d).run' 0
  | none => return {}

end MachineFile

end Atari
