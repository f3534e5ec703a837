import Atari.Yaml.Token

/-!
# From text to tokens

Where tokens start, and what indentation and colons say. A mapping has no mark of its own: whatever can
be a key is remembered until a colon follows on the same line, and the marks of the key and of its
mapping are put in front of it then.

* `Yaml.Candidate`: something that becomes a key if a colon follows;
* `Yaml.Layout`: the tokens so far and what is open;
* `Yaml.Layout.next`: one more token;
* `Yaml.tokens`: the tokens of a text.
-/

namespace Atari

namespace Yaml

/-- Something that becomes a key if a colon follows. -/
structure Candidate where
  line : Nat
  column : Nat
  offset : Nat
  /-- The number of tokens in front of it. -/
  position : Nat
  /-- Whether nothing but a key can stand there. -/
  isRequired : Bool
  deriving DecidableEq, Repr

/-- The number of bytes between the start of a key and its colon at most. -/
def maxKeyWidth : Nat := 1024

/-- The candidate if its colon can stand at the cell. -/
def Candidate.upTo (c : Cell) (k : Candidate) : Except YamlError (Option Candidate) :=
  if k.line = c.line ∧ c.offset ≤ k.offset + maxKeyWidth then .ok (some k)
  else if k.isRequired then .error .colon
  else .ok none

/-- The tokens so far and what is open. -/
structure Layout where
  rest : List Cell
  /-- The tokens, the latest first. -/
  tokens : List Token := []
  /-- The number of tokens. -/
  count : Nat := 0
  candidate : Option Candidate := none
  /-- The candidates in front of the brackets that are open, the innermost first. -/
  outer : List (Option Candidate) := []
  /-- The columns of the collections by indentation that are open, the innermost first. -/
  indents : List Nat := []
  /-- Whether a key can start here. -/
  mayStart : Bool := true
  deriving DecidableEq, Repr

namespace Layout

def inFlow (s : Layout) : Bool := !s.outer.isEmpty

/-- One more token, and what follows it. -/
def emit (t : Token) (rest : List Cell) (s : Layout) : Layout :=
  { s with tokens := t :: s.tokens, count := s.count + 1, rest := rest }

/-- Puts a token behind the first `position` others. -/
def insert (position : Nat) (t : Token) (s : Layout) : Layout :=
  { s with tokens := s.tokens.insertIdx (s.count - position) t, count := s.count + 1 }

/-! ## Blanks and comments -/

/-- Whether a key can start behind blanks, comments and line breaks, and what follows them. Where a key
can start, tabs are no blanks. -/
def skipFrom (inFlow : Bool) : (inComment mayStart : Bool) → List Cell → Bool × List Cell
  | _, mayStart, [] => (mayStart, [])
  | inComment, mayStart, c :: cs =>
    if isBreak c.char then skipFrom inFlow false (mayStart || !inFlow) cs
    else if inComment then skipFrom inFlow true mayStart cs
    else if c.char = '#' then skipFrom inFlow true mayStart cs
    else if c.char = ' ' || c.char = '\t' && (inFlow || !mayStart) ||
        c.char = orderMark && c.column = 0 then
      skipFrom inFlow false mayStart cs
    else (mayStart, c :: cs)

/-- Passes over blanks, comments and line breaks. -/
def skip (s : Layout) : Layout :=
  let (mayStart, rest) := skipFrom s.inFlow false s.mayStart s.rest
  { s with mayStart := mayStart, rest := rest }

/-! ## Candidates -/

/-- Forgets the candidate if its colon cannot follow any more. Those in front of open brackets are looked
at when the brackets are closed. -/
def forgetFar (c : Cell) (s : Layout) : Except YamlError Layout :=
  match s.candidate with
  | some k => do return { s with candidate := ← k.upTo c }
  | none => .ok s

/-- Forgets the candidate, since something else than a colon follows it. -/
def forget (s : Layout) : Except YamlError Layout :=
  if s.candidate.any (·.isRequired) then .error .colon else .ok { s with candidate := none }

/-- Makes what starts at a cell a candidate, if a key can start there. -/
def propose (c : Cell) (s : Layout) : Except YamlError Layout :=
  if s.mayStart then do
    let isRequired := !s.inFlow && s.indents.head? == some c.column
    let s ← s.forget
    return { s with candidate := some ⟨c.line, c.column, c.offset, s.count, isRequired⟩ }
  else .ok s

/-! ## Indentation -/

/-- Opens a collection by indentation, in front of what stands behind the first `position` tokens, if it
is deeper than those that are open. -/
def indent (column position : Nat) (t : Token) (s : Layout) : Layout :=
  if s.inFlow || s.indents.head?.any (column ≤ ·) then s
  else { s.insert position t with indents := column :: s.indents }

/-- Closes the collections by indentation that are deeper than a column, or all of them. -/
def unindent (column : Option Nat) (s : Layout) : Layout :=
  if s.inFlow then s
  else
    let (closed, indents) := s.indents.span fun n => column.all (· < n)
    { s with
      indents := indents
      tokens := List.replicate closed.length .blockEnd ++ s.tokens
      count := s.count + closed.length }

/-! ## Tokens -/

/-- Something that stands between documents, in front of `rest`. -/
def between (t : Token) (rest : List Cell) (s : Layout) : Except YamlError Layout := do
  return { ← (s.unindent none).forget with mayStart := false }.emit t rest

def openBracket (t : Token) (c : Cell) (cs : List Cell) (s : Layout) : Except YamlError Layout := do
  let s ← s.propose c
  return { s with outer := s.candidate :: s.outer, candidate := none, mayStart := true }.emit t cs

/-- A closing bracket. -/
def closeBracket (t : Token) (cs : List Cell) (s : Layout) : Except YamlError Layout := do
  let s ← s.forget
  let candidate := (s.outer.head?).join
  return { s with candidate := candidate, outer := s.outer.tail, mayStart := false }.emit t cs

def comma (cs : List Cell) (s : Layout) : Except YamlError Layout := do
  return { ← s.forget with mayStart := true }.emit .comma cs

/-- Something that only starts where a key can, if no bracket is open, and opens a collection there. -/
def start (collection : Token) (c : Cell) (s : Layout) : Except YamlError Layout :=
  if s.inFlow then .ok s
  else if s.mayStart then .ok (s.indent c.column s.count collection)
  else .error .misplaced

/-- The dash of an item. -/
def item (c : Cell) (cs : List Cell) (s : Layout) : Except YamlError Layout := do
  let s ← (← s.start .blockSequence c).forget
  return { s with mayStart := true }.emit .item cs

/-- The mark of a key. -/
def key (c : Cell) (cs : List Cell) (s : Layout) : Except YamlError Layout := do
  let s ← (← s.start .blockMapping c).forget
  return { s with mayStart := !s.inFlow }.emit .key cs

/-- The colon in front of a value. -/
def value (c : Cell) (cs : List Cell) (s : Layout) : Except YamlError Layout :=
  match s.candidate with
  | some k =>
    let s := (s.insert k.position .key).indent k.column k.position .blockMapping
    .ok ({ s with candidate := none, mayStart := false }.emit .value cs)
  | none => do
    let s ← s.start .blockMapping c
    return { s with mayStart := !s.inFlow }.emit .value cs

/-- A token that can be a key, or stand in front of one. -/
def word (c : Cell) (r : Except YamlError (Token × List Cell)) (s : Layout) : Except YamlError Layout := do
  let s ← s.propose c
  let (t, rest) ← r
  return { s with mayStart := false }.emit t rest

def quoted (c : Cell) (r : Except YamlError (List Char × List Cell)) (s : Layout) :
    Except YamlError Layout :=
  s.word c (r.map fun (text, rest) => (.scalar .quoted (String.ofList text), rest))

/-- A plain scalar. -/
def plain (c : Cell) (cs : List Cell) (s : Layout) : Except YamlError Layout := do
  let s ← s.propose c
  let depth := s.indents.head?.elim 0 (· + 1)
  let (text, isBroken, rest) ← Yaml.plain s.inFlow depth {} (c :: cs)
  return { s with mayStart := isBroken }.emit (.scalar .plain (String.ofList text)) rest

/-- A scalar on lines of its own. -/
def lines (isLiteral : Bool) (cs : List Cell) (s : Layout) : Except YamlError Layout := do
  let s ← s.forget
  let (text, rest) ← lineScalar isLiteral s.indents.head? cs
  let style := if isLiteral then Style.literal else .folded
  return { s with mayStart := true }.emit (.scalar style text) rest

/-- One more token, which starts at a cell. -/
def next (c : Cell) (cs : List Cell) (s : Layout) : Except YamlError Layout :=
  let isOpen := s.inFlow || isEnd cs
  if c.char = '%' ∧ c.column = 0 then do
    let s ← (s.unindent none).forget
    let (t, rest) ← directive cs
    return { s with mayStart := false }.emit t rest
  else if isMark '-' (c :: cs) then s.between .documentStart (cs.drop 2)
  else if isMark '.' (c :: cs) then s.between .documentEnd (cs.drop 2)
  else match c.char with
    | '[' => s.openBracket .flowSequence c cs
    | '\x7b' => s.openBracket .flowMapping c cs
    | ']' => s.closeBracket .flowSequenceEnd cs
    | '\x7d' => s.closeBracket .flowMappingEnd cs
    | ',' => s.comma cs
    | '*' => s.word c ((anchorName cs).map fun (name, rest) => (.reference name, rest))
    | '&' => s.word c ((anchorName cs).map fun (name, rest) => (.anchor name, rest))
    | '!' => s.word c (tag s.inFlow cs)
    | '\'' => s.quoted c (singleQuoted {} cs)
    | '"' => s.quoted c (doubleQuoted {} cs)
    | '-' => if isEnd cs then s.item c cs else s.plain c cs
    | '?' => if isOpen then s.key c cs else s.plain c cs
    | ':' => if isOpen then s.value c cs else s.plain c cs
    | '|' => if s.inFlow then .error (.unexpected c.char) else s.lines true cs
    | '>' => if s.inFlow then .error (.unexpected c.char) else s.lines false cs
    | x => if indicators.contains x || isGap x then .error (.unexpected x) else s.plain c cs

/-- All tokens, where each of at most `n` steps takes a character or ends. -/
def run : (n : Nat) → Layout → Except YamlError (List Token)
  | 0, _ => .error .unfitting
  | n + 1, s => do
    let s := s.skip
    match s.rest with
    | [] => return (← (s.unindent none).forget).tokens.reverse
    | c :: cs =>
      let s ← s.forgetFar c
      run n (← (s.unindent (some c.column)).next c cs)

end Layout

def tokens (s : String) : Except YamlError (List Token) := do
  let cs ← cells s
  Layout.run (cs.length + 1) { rest := cs }

end Yaml

end Atari
