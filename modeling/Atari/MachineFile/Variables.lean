/-!
# Variables

References to variables in a text. A reference is a dollar sign and a name in braces; the name has at
least one character and ends at the first closing brace.

* `references`: the names in a text, in order;
* `replaceAll`: a text with all places of a pattern replaced;
* `Environment.expand`: a text with the values in the places of the references.
-/

namespace Atari

/-- The values of variables. -/
abbrev Environment := List (String × String)

/-- A variable that has no value. -/
structure Undefined where
  name : String
  deriving DecidableEq, Repr

def Undefined.message (u : Undefined) : String := "environment variable '" ++ u.name ++ "' not found"

/-- The names of the references in a text. Inside of a reference, `name` holds the characters of its
name so far, the latest first. -/
def references : (name : Option (List Char)) → List Char → List (List Char)
  | _, [] => []
  | none, '$' :: '\x7b' :: cs => references (some []) cs
  | none, _ :: cs => references none cs
  | some [], '\x7d' :: cs => references none cs
  | some name, '\x7d' :: cs => name.reverse :: references none cs
  | some name, c :: cs => references (some (c :: name)) cs

/-- A reference to the variable of a name. -/
def reference (name : List Char) : List Char := '$' :: '\x7b' :: name ++ ['\x7d']

/-- A text with a value in all places of a pattern, from left to right; the next `skipped` characters
belong to the last place. -/
def replaceAll (pattern value : List Char) : (skipped : Nat) → List Char → List Char
  | _, [] => []
  | skipped + 1, _ :: cs => replaceAll pattern value skipped cs
  | 0, c :: cs =>
    if pattern.isPrefixOf (c :: cs) then value ++ replaceAll pattern value (pattern.length - 1) cs
    else c :: replaceAll pattern value 0 cs

namespace Environment

/-- The value of a variable. A variable is kept as one text: its name, an equals sign and its value. So
what is asked for may reach up to an equals sign in the value. -/
def value? (e : Environment) (name : List Char) : Option (List Char) :=
  e.findSome? fun (n, v) => (name ++ ['=']).isPrefixOf? (n.toList ++ '=' :: v.toList)

/-- The text with the value of a variable in the places of its references. -/
def substitute (e : Environment) (text name : List Char) : Except Undefined (List Char) :=
  match e.value? name with
  | some value => .ok (replaceAll (reference name) value 0 text)
  | none => .error ⟨String.ofList name⟩

/-- The text with the values of the variables that it refers to. They are put in one after the other,
each in all places of its reference. -/
def expand (e : Environment) (text : String) : Except Undefined String := do
  let cs := text.toList
  return String.ofList (← (references none cs).foldlM e.substitute cs)

end Environment

end Atari
