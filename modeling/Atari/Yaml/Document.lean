import Atari.Yaml.Layout
import Atari.Yaml.Node

/-!
# Documents

Tokens as one document.

* `Yaml.Reader`: the tokens that are left, and the names so far;
* `Yaml.node`: the next value;
* `Yaml.parse`: the document of a text; none if nothing is written.
-/

namespace Atari

namespace Yaml

/-- The tokens that are left, and the names so far. -/
structure Reader where
  tokens : List Token
  /-- What the handles of tags stand for. -/
  handles : List (String × List Byte) := []
  /-- The names of values with their numbers, each name once. -/
  names : List (String × Nat) := []
  /-- The values with names. -/
  named : List (Nat × Node) := []

abbrev Reading := StateT Reader (Except YamlError)

def next? : Reading (Option Token) := do return (← get).tokens.head?

/-- Passes over the next token. -/
def drop : Reading Unit := modify fun r => { r with tokens := r.tokens.tail }

/-- Whether the next token is one of some. -/
def isNext (ts : List Token) : Reading Bool := do return (← next?).any ts.contains

/-- Passes over the next token if it is the given one, and tells whether it was. -/
def accept (t : Token) : Reading Bool := do
  if ← isNext [t] then
    drop
    return true
  else return false

/-- A value, or nothing in front of one of some tokens. -/
def unlessNext (ts : List Token) (x : Reading Node) : Reading Node := do
  if ← isNext ts then return .absent else x

/-! ## Names and tags -/

/-- The name in front of a value. -/
def anchor? : Reading (Option String) := do
  match ← next? with
  | some (.anchor name) =>
    drop
    return some name
  | _ => return none

/-- The tag in front of a value. -/
def tag? : Reading (Option (List Byte)) := do
  match ← next? with
  | some (.tag handle suffix) =>
    drop
    if handle = "" then return some suffix
    match (← get).handles.lookup handle with
    | some expansion => return some (expansion ++ suffix)
    | none => throw (.unknown handle)
  | _ => return none

/-- Gives a name to the value that starts here, and tells its number: how many different names there
are so far. Where a name is used again, the next new one gets the same number, which then stands for the
value that starts last. -/
def introduce (name : String) : Reading Nat := do
  let number := (← get).names.length
  modify fun r => { r with
    names := (name, number) :: r.names.filter (·.1 ≠ name)
    named := r.named.filter (·.1 ≠ number) }
  return number

/-- Keeps the value with a number, unless a value inside of it took the number over. -/
def keep (number : Nat) (x : Node) : Reading Unit :=
  modify fun r => if r.named.any (·.1 = number) then r else { r with named := (number, x) :: r.named }

/-- The value with a name. -/
def resolve (name : String) : Reading Node := do
  match (← get).names.lookup name with
  | some number => return .reference number
  | none => throw (.unknown name)

/-! ## Values -/

mutual

/-- The next value. Collections by indentation start only `inBlock`, and items without indentation of
their own only below a key. At most `n` steps. -/
def node : (n : Nat) → (inBlock belowKey : Bool) → Reading Node
  | 0, _, _ => throw .unfitting
  | n + 1, inBlock, belowKey => do
    if let some (.reference name) ← next? then
      drop
      return ← resolve name
    let first ← anchor?
    let tag ← tag?
    let second ← if first.isNone then anchor? else pure none
    let number ← (first <|> second).mapM introduce
    let x ← match ← next?, inBlock, belowKey with
      | some .item, _, true => .sequence <$> looseItems n
      | some .blockSequence, true, _ => do
        drop
        .sequence <$> items n
      | some .blockMapping, true, _ => do
        drop
        .mapping <$> entries n
      | some .flowSequence, _, _ => do
        drop
        .sequence <$> flowItems n true
      | some .flowMapping, _, _ => do
        drop
        .mapping <$> flowEntries n true
      | some (.scalar style text), _, _ => do
        drop
        pure (.scalar tag style text)
      | _, _, _ =>
        if number.isNone && tag.isNone then throw .unfitting else pure (.scalar tag .plain "")
    if let some k := number then keep k x
    return x

/-- The items of a sequence by indentation. -/
def items : (n : Nat) → Reading (List Node)
  | 0 => throw .unfitting
  | n + 1 => do
    if ← accept .blockEnd then return []
    unless ← accept .item do throw .unfitting
    let x ← unlessNext [.item, .blockEnd] (node n true false)
    return x :: (← items n)

/-- The items of a sequence below a key that is indented like them. -/
def looseItems : (n : Nat) → Reading (List Node)
  | 0 => throw .unfitting
  | n + 1 => do
    unless ← accept .item do return []
    let x ← unlessNext [.item, .key, .value, .blockEnd] (node n true false)
    return x :: (← looseItems n)

/-- The entries of a mapping by indentation. -/
def entries : (n : Nat) → Reading (List (Node × Node))
  | 0 => throw .unfitting
  | n + 1 => do
    if ← accept .blockEnd then return []
    unless ← accept .key do throw .unfitting
    let k ← unlessNext [.key, .value, .blockEnd] (node n true true)
    let x ← if ← accept .value then unlessNext [.key, .value, .blockEnd] (node n true true)
      else pure .absent
    return (k, x) :: (← entries n)

/-- The items of a sequence between brackets. An item with a colon is a mapping of one entry. -/
def flowItems : (n : Nat) → (isFirst : Bool) → Reading (List Node)
  | 0, _ => throw .unfitting
  | n + 1, isFirst => do
    if ← accept .flowSequenceEnd then return []
    unless isFirst do
      unless ← accept .comma do throw .unfitting
    if ← accept .flowSequenceEnd then return []
    let x ← if ← accept .key then (.mapping [·]) <$> pair n else node n false false
    return x :: (← flowItems n false)

/-- The entry behind the mark of a key in a sequence between brackets. Whatever stands in the place of
the key is passed over. -/
def pair : (n : Nat) → Reading (Node × Node)
  | 0 => throw .unfitting
  | n + 1 => do
    let k ← if ← isNext [.value, .comma, .flowSequenceEnd] then do
        drop
        pure .absent
      else node n false false
    let x ← if ← accept .value then unlessNext [.comma, .flowSequenceEnd] (node n false false)
      else pure .absent
    return (k, x)

/-- The entries of a mapping between brackets. A key alone has no value. -/
def flowEntries : (n : Nat) → (isFirst : Bool) → Reading (List (Node × Node))
  | 0, _ => throw .unfitting
  | n + 1, isFirst => do
    if ← accept .flowMappingEnd then return []
    unless isFirst do
      unless ← accept .comma do throw .unfitting
    if ← accept .flowMappingEnd then return []
    let entry ← if ← accept .key then do
        let k ← unlessNext [.value, .comma, .flowMappingEnd] (node n false false)
        let x ← if ← accept .value then unlessNext [.comma, .flowMappingEnd] (node n false false)
          else pure .absent
        pure (k, x)
      else do
        let k ← node n false false
        pure (k, .absent)
    return entry :: (← flowEntries n false)

end

/-! ## Documents -/

/-- What the handles of tags stand for if nothing else is said. -/
def defaultHandles : List (String × List Byte) := [("!", bareTag), ("!!", coreTag "")]

/-- The handles that the directives in front of a document introduce. -/
def directives : List Token → (isVersioned : Bool) → (handles : List (String × List Byte)) →
    Except YamlError (List (String × List Byte) × List Token)
  | .version major minor :: ts, isVersioned, handles =>
    if isVersioned || major != 1 || minor != 1 && minor != 2 then .error .directive
    else directives ts true handles
  | .handle name expansion :: ts, isVersioned, handles =>
    if handles.any (·.1 == name) then .error .directive
    else directives ts isVersioned ((name, expansion) :: handles)
  | ts, _, handles => .ok (handles ++ defaultHandles, ts)

/-- The value of a document behind its directives. Behind the mark of its start nothing need follow. -/
def content (isExplicit : Bool) : Reading Node := do
  let n := 4 * (← get).tokens.length + 4
  let isEmpty := match ← next? with
    | none | some (.version _ _) | some (.handle _ _) | some .documentStart | some .documentEnd => true
    | _ => false
  if isExplicit && isEmpty then return .absent else node n true false

/-- The document of a text; none if nothing is written. -/
def parse (s : String) : Except YamlError (Option Document) := do
  let ts ← tokens s
  if ts.isEmpty then return none
  let (handles, ts') ← directives ts false []
  let isExplicit := ts'.head? == some .documentStart
  unless isExplicit || ts'.length == ts.length do throw .directive
  let ts' := if isExplicit then ts'.tail else ts'
  let (root, r) ← (content isExplicit).run { tokens := ts', handles := handles }
  unless (r.tokens.dropWhile (· == .documentEnd)).isEmpty do throw .secondDocument
  return some ⟨root, r.named, followedPerPart * root.size⟩

end Yaml

end Atari
