/-!
# Paths

Paths are texts of names between slashes. They are joined and cut as texts: no name is looked up.

* `Path.join`: a path that starts at another one;
* `Path.parent`: the path of the directory that holds the last name.
-/

namespace Atari

namespace Path

/-- Whether a path starts at the root. -/
def isAbsolute (path : String) : Bool := path.toList.head? = some '/'

/-- Whether a path holds the character that ends one. -/
def holdsEnd (path : String) : Bool := path.toList.contains '\x00'

/-- The path that starts at `base`; an absolute path replaces it. -/
def join (base path : String) : String :=
  if isAbsolute path ∨ base = "" then path
  else if base.toList.getLast? = some '/' then base ++ path
  else base ++ "/" ++ path

/-- The names between the slashes; between two slashes in a row there is an empty one. -/
def names : List Char → List (List Char)
  | [] => [[]]
  | c :: cs => match names cs with
    | [] => [[c]]
    | n :: ns => if c = '/' then [] :: n :: ns else (c :: n) :: ns

/-- Names with slashes between them. -/
def ofNames : List (List Char) → List Char
  | [] => []
  | [n] => n
  | n :: ns => n ++ '/' :: ofNames ns

def isIdle (name : List Char) : Bool := name.isEmpty || name == ['.']

/-- The names up to the last one that leads somewhere. -/
def trimIdle (ns : List (List Char)) : List (List Char) := (ns.reverse.dropWhile isIdle).reverse

/-- The start of a path that is no name to be cut off: the root or the directory it starts at. -/
def splitStart : List Char → List Char × List Char
  | '/' :: cs => (['/'], cs)
  | ['.'] => (['.'], [])
  | '.' :: '/' :: cs => (['.'], '/' :: cs)
  | cs => ([], cs)

/-- The path without its last name, and without the slashes and idle names before it. A path without
names has the empty path. -/
def parent (path : String) : String :=
  let (start, rest) := splitStart path.toList
  match trimIdle (names rest) with
  | [] => ""
  | ns => String.ofList (start ++ ofNames (trimIdle ns.dropLast))

end Path

end Atari
