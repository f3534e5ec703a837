/-!
# Errors in documents

* `YamlError`: why a text is no document, or holds something else than asked for.
-/

namespace Atari

/-- Why a text is no document of the expected shape. -/
inductive YamlError
  /-- A character that a text cannot hold. -/
  | character (c : Char)
  /-- A character that no token starts with. -/
  | unexpected (c : Char)
  /-- A tab where only spaces can indent. -/
  | tab
  /-- An item, a key or a value where none can start. -/
  | misplaced
  /-- A key without a colon. -/
  | colon
  /-- A quoted scalar without its closing quote. -/
  | unclosed
  /-- An escape that stands for no character. -/
  | escape
  /-- Something that does not belong on the first line of a scalar of several lines. -/
  | header
  /-- An anchor or an alias without a name. -/
  | anchor
  | tag
  | directive
  /-- The name of an anchor, or the handle of a tag, that was not introduced. -/
  | unknown (name : String)
  /-- A token that does not continue what was begun. -/
  | unfitting
  | secondDocument
  /-- Too many references for a document of its size. -/
  | repetition
  /-- A value of another kind than expected. -/
  | expected (kind : String)
  | missing (field : String)
  | duplicate (field : String)
  deriving DecidableEq, Repr

/-- The text that reports the error. -/
def YamlError.message : YamlError → String
  | character _ => "control characters are not allowed"
  | unexpected c => "unexpected character " ++ String.singleton c
  | tab => "a tab cannot indent a line"
  | misplaced => "an item, a key or a value cannot start here"
  | colon => "expected a colon behind a key"
  | unclosed => "expected a closing quote"
  | escape => "unknown escape in a quoted scalar"
  | header => "unexpected text in front of a scalar of several lines"
  | anchor => "expected the name of an anchor"
  | tag => "expected a tag"
  | directive => "unknown directive"
  | unknown name => "unknown name '" ++ name ++ "'"
  | unfitting => "expected an item, a key or the end of a collection"
  | secondDocument => "more than one document"
  | repetition => "too many references"
  | expected kind => "expected " ++ kind
  | missing field => "missing field '" ++ field ++ "'"
  | duplicate field => "duplicate field '" ++ field ++ "'"

end Atari
