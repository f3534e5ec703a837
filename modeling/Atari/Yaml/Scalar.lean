import Atari.AddressText
import Atari.Yaml.Text

/-!
# Scalars

Plain and quoted scalars. A scalar may go on over several lines: a line break with the blanks around
it reads as a blank, and further line breaks stay.

* `Yaml.Gap`: what stands between two words, and how it reads;
* `Yaml.plain`: a scalar without quotes, up to what ends it;
* `Yaml.singleQuoted`, `Yaml.doubleQuoted`: the rest of a scalar behind its opening quote.
-/

namespace Atari

namespace Yaml

/-- How a scalar is written. -/
inductive Style
  | plain
  | quoted
  /-- On lines of its own, which stay apart. -/
  | literal
  /-- On lines of its own, which are joined. -/
  | folded
  deriving DecidableEq, Repr

/-! ## Gaps -/

/-- What stands between two words of a scalar. -/
structure Gap where
  /-- The blanks, if there is no line break, the latest first. -/
  blanks : List Char := []
  isBroken : Bool := false
  /-- The first line break; it is missing behind a backslash. -/
  first : Option Char := none
  /-- The further line breaks, the latest first. -/
  others : List Char := []
  deriving DecidableEq, Repr

namespace Gap

/-- The gap behind a backslash at the end of a line. -/
def escaped : Gap := { isBroken := true }

def isEmpty (g : Gap) : Bool := !g.isBroken && g.blanks.isEmpty

/-- The gap with one more character. -/
def add (g : Gap) (c : Char) : Gap :=
  if isBreak c then
    if g.isBroken then { g with others := c :: g.others } else { isBroken := true, first := some c }
  else if g.isBroken then g
  else { g with blanks := c :: g.blanks }

/-- How the gap reads. -/
def text (g : Gap) : List Char :=
  if !g.isBroken then g.blanks.reverse
  else if g.first = some '\n' then if g.others.isEmpty then [' '] else g.others.reverse
  else g.first.toList ++ g.others.reverse

end Gap

/-! ## Plain scalars -/

/-- The characters that no plain scalar starts with. -/
def indicators : List Char :=
  [',', '[', ']', '\x7b', '\x7d', '#', '&', '*', '!', '|', '>', '\'', '"', '%', '@', '\x60']

/-- The characters that end a plain scalar between brackets. -/
def brackets : List Char := [',', '[', ']', '\x7b', '\x7d']

/-- Whether a plain scalar ends in front of the cells, which start with no gap. Outside of brackets its
lines are indented by at least `indent`. -/
def endsPlain (inFlow : Bool) (indent : Nat) (g : Gap) : List Cell → Bool
  | [] => true
  | c :: cs =>
    g.isBroken && !inFlow && c.column < indent || isBoundary (c :: cs) || !g.isEmpty && c.char == '#' ||
      c.char == ':' && isEnd cs || inFlow && brackets.contains c.char

/-- Whether a colon stands in front of a bracket, which belongs to no scalar. -/
def isStrayColon : List Cell → Bool
  | c :: d :: _ => c.char == ':' && (d.char == '?' || brackets.contains d.char)
  | _ => false

/-- The rest of a plain scalar behind some gap, whether the gap that ends it has a line break, and what
follows. -/
def plain (inFlow : Bool) (indent : Nat) : Gap → List Cell →
    Except YamlError (List Char × Bool × List Cell)
  | g, [] => .ok ([], g.isBroken, [])
  | g, c :: cs =>
    if isGap c.char then
      if g.isBroken && c.char == '\t' && c.column < indent then .error .tab
      else plain inFlow indent (g.add c.char) cs
    else if endsPlain inFlow indent g (c :: cs) then .ok ([], g.isBroken, c :: cs)
    else if inFlow && isStrayColon (c :: cs) then .error (.unexpected ':')
    else do
      let (text, isBroken, rest) ← plain inFlow indent {} cs
      return (g.text ++ c.char :: text, isBroken, rest)

/-! ## Quoted scalars -/

/-- A text in front of a scalar and what follows it. -/
def prepend (text : List Char) (r : Except YamlError (List Char × List Cell)) :
    Except YamlError (List Char × List Cell) :=
  r.map fun (s, rest) => (text ++ s, rest)

/-- The rest of a scalar in single quotes behind some gap, and what follows it. A quote inside is
written twice. -/
def singleQuoted : Gap → List Cell → Except YamlError (List Char × List Cell)
  | _, [] => .error .unclosed
  | g, c :: cs =>
    if isGap c.char then singleQuoted (g.add c.char) cs
    else if isBoundary (c :: cs) then .error .unclosed
    else if c.char = '\'' then
      match cs with
      | [] => .ok (g.text, [])
      | d :: ds =>
        if d.char = '\'' then prepend (g.text ++ ['\'']) (singleQuoted {} ds) else .ok (g.text, d :: ds)
    else prepend (g.text ++ [c.char]) (singleQuoted {} cs)

/-- The characters that a letter behind a backslash stands for. -/
def escapes : List (Char × Char) :=
  [('0', '\x00'), ('a', '\x07'), ('b', '\x08'), ('t', '\t'), ('\t', '\t'), ('n', '\n'), ('v', '\x0b'),
    ('f', '\x0c'), ('r', '\r'), ('e', '\x1b'), (' ', ' '), ('"', '"'), ('/', '/'), ('\\', '\\'),
    ('N', '\u0085'), ('_', '\u00a0'), ('L', '\u2028'), ('P', '\u2029')]

/-- The character of a number in hexadecimal digits. -/
def numbered (digits : List Cell) : Except YamlError Char :=
  match hexNumber 0 0 (chars digits) with
  | .ok n => if h : n.isValidChar then .ok (Char.ofNatAux n h) else .error .escape
  | .error _ => .error .escape

/-- The rest of a scalar in double quotes behind some gap, and what follows it. A backslash at the
end of a line joins it with the next one. -/
def doubleQuoted : Gap → List Cell → Except YamlError (List Char × List Cell)
  | _, [] => .error .unclosed
  | g, c :: cs =>
    if isGap c.char then doubleQuoted (g.add c.char) cs
    else if isBoundary (c :: cs) then .error .unclosed
    else if c.char = '"' then .ok (g.text, cs)
    else if c.char = '\\' then
      match cs with
      | [] => .error .unclosed
      | e :: cs =>
        if isBreak e.char then prepend g.text (doubleQuoted .escaped cs)
        else match e.char, cs with
          | 'x', a :: b :: cs => do
            let c ← numbered [a, b]
            prepend (g.text ++ [c]) (doubleQuoted {} cs)
          | 'u', a :: b :: c :: d :: cs => do
            let c ← numbered [a, b, c, d]
            prepend (g.text ++ [c]) (doubleQuoted {} cs)
          | 'U', a :: b :: c :: d :: e :: f :: g' :: h :: cs => do
            let c ← numbered [a, b, c, d, e, f, g', h]
            prepend (g.text ++ [c]) (doubleQuoted {} cs)
          | e, cs => match escapes.lookup e with
            | some c => prepend (g.text ++ [c]) (doubleQuoted {} cs)
            | none => .error .escape
    else prepend (g.text ++ [c.char]) (doubleQuoted {} cs)

end Yaml

end Atari
