import Atari.Yaml.Error

/-!
# Texts of documents

The characters of a text with their places. Lines end with `\n`, whatever ends them in the text, or
with one of the two separators that have no other meaning.

* `Yaml.Cell`: a character with its line, its column and its offset in bytes;
* `Yaml.cells`: the cells of a text;
* `Yaml.isEnd`, `Yaml.isBoundary`: what can follow a word, and what ends a document.
-/

namespace Atari

namespace Yaml

/-! ## Characters -/

/-- Whether a character separates words within a line. -/
def isSpace (c : Char) : Bool := c == ' ' || c == '\t'

def isBreak (c : Char) : Bool := c == '\n' || c == '\u2028' || c == '\u2029'

def isGap (c : Char) : Bool := isSpace c || isBreak c

/-- Whether a text can hold a character. -/
def isAllowed (c : Char) : Bool :=
  let n := c.toNat
  c == '\t' || c == '\n' || c == '\r' || 0x20 ≤ n && n ≤ 0x7E || n == 0x85 || 0xA0 ≤ n && n ≤ 0xD7FF ||
    0xE000 ≤ n && n ≤ 0xFFFD || 0x10000 ≤ n

/-- The mark of the order of bytes, which can start a line. -/
def orderMark : Char := '\ufeff'

/-! ## Cells -/

/-- A character and its place. -/
structure Cell where
  char : Char
  line : Nat
  column : Nat
  /-- The number of bytes in front of it. -/
  offset : Nat
  deriving DecidableEq, Repr

/-- The cells of characters from a place on. -/
def cellsFrom : (line column offset : Nat) → List Char → List Cell
  | _, _, _, [] => []
  | line, column, offset, '\r' :: '\n' :: cs =>
    ⟨'\n', line, column, offset⟩ :: cellsFrom (line + 1) 0 (offset + 2) cs
  | line, column, offset, c :: cs =>
    let next := offset + c.utf8Size
    let c := if c = '\r' ∨ c = '\u0085' then '\n' else c
    ⟨c, line, column, offset⟩ ::
      if isBreak c then cellsFrom (line + 1) 0 next cs else cellsFrom line (column + 1) next cs

/-- The cells of a text. -/
def cells (s : String) : Except YamlError (List Cell) :=
  match s.toList.find? (!isAllowed ·) with
  | some c => .error (.character c)
  | none => .ok (cellsFrom 0 0 0 s.toList)

def chars (cs : List Cell) : List Char := cs.map (·.char)

/-! ## What follows a cell -/

/-- Whether nothing follows, or a gap. -/
def isEnd : List Cell → Bool
  | [] => true
  | c :: _ => isGap c.char

/-- Whether the mark of a document that repeats a character stands here. -/
def isMark (mark : Char) : List Cell → Bool
  | a :: b :: c :: cs =>
    a.column == 0 && a.char == mark && b.char == mark && c.char == mark && isEnd cs
  | _ => false

/-- Whether a document starts or ends here. -/
def isBoundary (cs : List Cell) : Bool := isMark '-' cs || isMark '.' cs

/-- The cells from the end of the line on. -/
def dropLine (cs : List Cell) : List Cell := cs.dropWhile (!isBreak ·.char)

/-- The cells of the next line, if nothing but a comment stands on this one. -/
def nextLine? (cs : List Cell) : Option (List Cell) :=
  let cs := cs.dropWhile (isSpace ·.char)
  match if cs.head?.any (·.char == '#') then dropLine cs else cs with
  | [] => some []
  | c :: cs => if isBreak c.char then some cs else none

end Yaml

end Atari
