import Atari.Yaml.Lines

/-!
# Tokens

What a text is made of, and how the tokens read that stand in front of values and documents.

* `Yaml.Token`: the tokens;
* `Yaml.anchorName`: the name of a value;
* `Yaml.tag`: the mark of the kind of a value;
* `Yaml.directive`: a line in front of a document.
-/

namespace Atari

namespace Yaml

/-- What a text is made of. -/
inductive Token
  /-- The directive that tells the version of the format. -/
  | version (major minor : Nat)
  /-- The directive that tells what a handle stands for. -/
  | handle (name : String) (expansion : List Byte)
  | documentStart
  | documentEnd
  /-- The start of a sequence or a mapping by indentation. -/
  | blockSequence
  | blockMapping
  | blockEnd
  | flowSequence
  | flowSequenceEnd
  | flowMapping
  | flowMappingEnd
  | item
  | comma
  | key
  | value
  | anchor (name : String)
  /-- The name of a value that stands elsewhere. -/
  | reference (name : String)
  | tag (handle : String) (suffix : List Byte)
  | scalar (style : Style) (text : String)
  deriving DecidableEq, Repr

/-! ## Words -/

/-- Whether a character is part of a word; ASCII only. -/
def isWord (c : Char) : Bool := c.isAlphanum || c == '_' || c == '-'

/-- The word at the front, and what follows it. -/
def word (cs : List Cell) : List Char × List Cell :=
  (chars (cs.takeWhile (isWord ·.char)), cs.dropWhile (isWord ·.char))

/-- The name of an anchor, and what follows it. -/
def anchorName (cs : List Cell) : Except YamlError (String × List Cell) :=
  let (name, rest) := word cs
  let isClosed := isEnd rest ||
    rest.head?.any (['?', ':', ',', ']', '\x7d', '%', '@', '\x60'].contains ·.char)
  if name.isEmpty || !isClosed then .error .anchor else .ok (String.ofList name, rest)

/-! ## Tags -/

def utf8 (cs : List Char) : List Byte := cs.flatMap String.utf8EncodeChar

/-- The tag that is a mark alone. -/
def bareTag : List Byte := utf8 ['!']

/-- The tag of a kind of values. -/
def coreTag (kind : String) : List Byte := utf8 ("tag:yaml.org,2002:" ++ kind).toList

/-- Whether a character can stand for itself in a tag; between angles there are some more. -/
def isTagChar (inAngles : Bool) (c : Char) : Bool :=
  isWord c || [';', '/', '?', ':', '@', '&', '=', '+', '$', '.', '!', '~', '*', '\'', '(', ')'].contains c ||
    inAngles && [',', '[', ']'].contains c

/-- How many bytes of a character are missing behind a byte of it, if `left` were missing with it. -/
def missing (left byte : Nat) : Except YamlError Nat :=
  if left ≠ 0 then if byte / 0x40 = 2 then .ok (left - 1) else .error .tag
  else if byte < 0x80 then .ok 0
  else if byte / 0x20 = 6 then .ok 1
  else if byte / 0x10 = 14 then .ok 2
  else if byte / 8 = 30 then .ok 3
  else .error .tag

/-- The bytes of a tag, and what follows it. Characters that cannot stand for themselves are written as
the numbers of their bytes, of which `left` are missing. -/
def tagBytes (inAngles : Bool) : (left : Nat) → List Cell → Except YamlError (List Byte × List Cell)
  | left, [] => if left = 0 then .ok ([], []) else .error .tag
  | left, c :: cs =>
    if c.char = '%' then
      match cs with
      | a :: b :: cs => do
        let byte ← (hexNumber 0 0 (chars [a, b])).mapError fun _ => YamlError.tag
        let (bytes, rest) ← tagBytes inAngles (← missing left byte) cs
        return (UInt8.ofNat byte :: bytes, rest)
      | _ => .error .tag
    else if left ≠ 0 then .error .tag
    else if isTagChar inAngles c.char then
      (tagBytes inAngles 0 cs).map fun (bytes, rest) => (UInt8.ofNat c.char.toNat :: bytes, rest)
    else .ok ([], c :: cs)

/-- A tag ends in front of the first zero. -/
def untilZero (bytes : List Byte) : List Byte := bytes.takeWhile (· ≠ 0)

/-- The handle at the front of a tag, behind its first mark. A whole handle ends with a mark, too. -/
def tagHandle (cs : List Cell) : Bool × List Char × List Cell :=
  let (name, rest) := word cs
  match rest with
  | [] => (false, name, [])
  | c :: rest => if c.char = '!' then (true, name, rest) else (false, name, c :: rest)

/-- The handle and the suffix of a tag behind its first mark, and what follows it. The mark alone has no
handle. -/
def tagParts (cs : List Cell) : Except YamlError (String × List Byte × List Cell) :=
  if cs.head?.any (·.char == '<') then do
    let (bytes, rest) ← tagBytes true 0 (cs.drop 1)
    unless !bytes.isEmpty && rest.head?.any (·.char == '>') do throw .tag
    return ("", untilZero bytes, rest.drop 1)
  else
    match tagHandle cs with
    | (true, name, rest) => do
      let (bytes, rest) ← tagBytes false 0 rest
      if bytes.isEmpty then throw .tag
      return ("!" ++ String.ofList name ++ "!", untilZero bytes, rest)
    | (false, name, rest) => do
      let (bytes, rest) ← tagBytes false 0 rest
      let suffix := untilZero (utf8 name ++ bytes)
      return if suffix.isEmpty then ("", bareTag, rest) else ("!", suffix, rest)

/-- A tag behind its first mark, and what follows it. -/
def tag (inFlow : Bool) (cs : List Cell) : Except YamlError (Token × List Cell) := do
  let (handle, suffix, rest) ← tagParts cs
  unless isEnd rest || inFlow && rest.head?.any (·.char == ',') do throw .tag
  return (.tag handle suffix, rest)

/-! ## Directives -/

/-- A number of at most nine digits, and what follows it. -/
def versionNumber (cs : List Cell) : Except YamlError (Nat × List Cell) :=
  let digits := chars (cs.takeWhile (·.char.isDigit))
  if digits.isEmpty || 9 < digits.length then .error .directive
  else .ok (digits.foldl (fun n c => n * 10 + (c.toNat - '0'.toNat)) 0, cs.dropWhile (·.char.isDigit))

/-- The version of the format, and what follows it. -/
def versionDirective (cs : List Cell) : Except YamlError (Token × List Cell) := do
  let (major, cs) ← versionNumber cs
  unless cs.head?.any (·.char == '.') do throw .directive
  let (minor, cs) ← versionNumber (cs.drop 1)
  return (.version major minor, cs)

/-- What a handle stands for, and what follows it. -/
def handleDirective (cs : List Cell) : Except YamlError (Token × List Cell) := do
  unless cs.head?.any (·.char == '!') do throw .directive
  let (isWhole, name, rest) := tagHandle (cs.drop 1)
  unless isWhole || name.isEmpty do throw .directive
  let handle := if isWhole then "!" ++ String.ofList name ++ "!" else "!"
  unless rest.head?.any (isSpace ·.char) do throw .directive
  let (bytes, rest) ← tagBytes true 0 (rest.dropWhile (isSpace ·.char))
  unless !bytes.isEmpty && isEnd rest do throw .directive
  return (.handle handle (untilZero bytes), rest)

/-- A directive behind its mark, and the lines that follow it. -/
def directive (cs : List Cell) : Except YamlError (Token × List Cell) := do
  let (name, cs) := word cs
  unless isEnd cs do throw .directive
  let cs := cs.dropWhile (isSpace ·.char)
  let (t, cs) ← match String.ofList name with
    | "YAML" => versionDirective cs
    | "TAG" => handleDirective cs
    | _ => throw .directive
  match nextLine? cs with
  | some cs => return (t, cs)
  | none => throw .directive

end Yaml

end Atari
