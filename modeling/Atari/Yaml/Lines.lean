import Atari.Yaml.Scalar

/-!
# Scalars on lines of their own

Literal and folded scalars: the lines below a mark that are indented deeper than what they belong to.

* `Yaml.Chomp`, `Yaml.header`: what stands behind the mark;
* `Yaml.leadingLines`: the empty lines in front, which tell how deep the scalar is indented;
* `Yaml.linesText`: the text of the lines;
* `Yaml.lineScalar`: the scalar behind its mark.
-/

namespace Atari

namespace Yaml

/-- What becomes of the line breaks at the end of a scalar. -/
inductive Chomp
  | strip
  | clip
  | keep
  deriving DecidableEq, Repr

/-- The mark of what becomes of the line breaks. -/
def chomp? : List Cell → Option Chomp × List Cell
  | [] => (none, [])
  | c :: cs =>
    if c.char = '-' then (some .strip, cs) else if c.char = '+' then (some .keep, cs) else (none, c :: cs)

/-- The digit that tells the indentation. -/
def depth? : List Cell → Except YamlError (Option Nat × List Cell)
  | [] => .ok (none, [])
  | c :: cs =>
    if c.char = '0' then .error .header
    else if c.char.isDigit then .ok (some (c.char.toNat - '0'.toNat), cs)
    else .ok (none, c :: cs)

/-- What stands behind the mark of a scalar on lines of its own, in either order, and its lines. -/
def header (cs : List Cell) : Except YamlError (Chomp × Option Nat × List Cell) := do
  let (first, cs) := chomp? cs
  let (depth, cs) ← depth? cs
  let (second, cs) := if first.isNone then chomp? cs else (none, cs)
  match nextLine? cs with
  | some cs => return ((first <|> second).getD .clip, depth, cs)
  | none => throw .header

/-- The column of the deepest line and the line breaks of the empty lines in front of a scalar, the
latest first. -/
def leadingLines : (deepest : Nat) → (breaks : List Char) → List Cell →
    Except YamlError (Nat × List Char × List Cell)
  | deepest, breaks, [] => .ok (deepest, breaks, [])
  | deepest, breaks, c :: cs =>
    if c.char = ' ' then leadingLines deepest breaks cs
    else if c.char = '\t' then .error .tab
    else if isBreak c.char then leadingLines (max deepest c.column) (c.char :: breaks) cs
    else .ok (max deepest c.column, breaks, c :: cs)

/-- What has been read of a scalar on lines of its own. -/
structure Ending where
  /-- The line break behind the last line. -/
  last : List Char := []
  /-- The line breaks of the empty lines behind it, the latest first. -/
  others : List Char := []
  /-- Whether the last line starts with a blank. -/
  wasIndented : Bool := false
  deriving DecidableEq, Repr

/-- How the line breaks in front of the next line read. -/
def Ending.text (e : Ending) (isLiteral isIndented : Bool) : List Char :=
  if !isLiteral && e.last == ['\n'] && !e.wasIndented && !isIndented then
    if e.others.isEmpty then [' '] else e.others.reverse
  else e.last ++ e.others.reverse

/-- The text of lines that are indented by `indent`, how it ends, and what follows. -/
def linesText (isLiteral : Bool) (indent : Nat) : (inLine : Bool) → Ending → List Cell →
    Except YamlError (List Char × Ending × List Cell)
  | _, e, [] => .ok ([], e, [])
  | true, e, c :: cs =>
    if isBreak c.char then linesText isLiteral indent false { e with last := [c.char] } cs
    else do
      let (text, e, rest) ← linesText isLiteral indent true e cs
      return (c.char :: text, e, rest)
  | false, e, c :: cs =>
    if c.column < indent && c.char == ' ' then linesText isLiteral indent false e cs
    else if c.column < indent && c.char == '\t' then .error .tab
    else if isBreak c.char then
      linesText isLiteral indent false { e with others := c.char :: e.others } cs
    else if c.column < indent then .ok ([], e, c :: cs)
    else do
      let isIndented := isSpace c.char
      let (text, next, rest) ← linesText isLiteral indent true { wasIndented := isIndented } cs
      return (e.text isLiteral isIndented ++ c.char :: text, next, rest)

/-- A scalar behind its mark, which belongs to something indented by `parent`, and what follows it. -/
def lineScalar (isLiteral : Bool) (parent : Option Nat) (cs : List Cell) :
    Except YamlError (String × List Cell) := do
  let (chomp, depth, cs) ← header cs
  let (indent, breaks, cs) ← match depth with
    | some n => pure (parent.getD 0 + n, [], cs)
    | none => do
      let (deepest, breaks, cs) ← leadingLines 0 [] cs
      pure (max deepest (parent.elim 1 (· + 1)), breaks, cs)
  let (text, e, rest) ← linesText isLiteral indent false { others := breaks } cs
  let ending := match chomp with
    | .strip => []
    | .clip => e.last
    | .keep => e.last ++ e.others.reverse
  return (String.ofList (text ++ ending), rest)

end Yaml

end Atari
