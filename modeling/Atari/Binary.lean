import Atari.Value

/-!
# Atari binaries

A file of segments: the marker `FF FF`, then for each segment its first and its last address, low byte
first, and its bytes. The marker can be repeated before any segment. Segments that start at `RUNAD` or
`INITAD` carry the address of the program and of a routine to be run before.

* `Binary.parse`: the segments of a file;
* `Binary.runAddress`, `Binary.initAddress`: what the last such segment carries.
-/

namespace Atari

/-- Bytes with the address of the first. -/
structure Segment where
  address : Address
  data : List Byte
  deriving DecidableEq, Repr

/-- Why a file is no Atari binary. -/
inductive BinaryError
  | header (bytes : List Byte)
  | truncatedHeader (offset : Nat)
  | reversed (offset : Nat) (first last : Address)
  | truncatedData (first last : Address)
  deriving DecidableEq, Repr

/-- The text that reports the error. -/
def BinaryError.message : BinaryError → String
  | header bytes => "not an Atari binary, header is '" ++ String.join (bytes.map Byte.digits) ++
      "' instead of 'ffff'"
  | truncatedHeader offset => "truncated segment header at offset " ++ toString offset
  | reversed offset first last => "segment at offset " ++ toString offset ++ " ends (" ++ last.text ++
      ") before it starts (" ++ first.text ++ ")"
  | truncatedData first last => "segment " ++ first.text ++ "-" ++ last.text ++ " is truncated"

/-- The segments of a file, in order. -/
structure Binary where
  segments : List Segment
  deriving DecidableEq, Repr

namespace Binary

/-- Where the address of the program is stored. -/
def runad : Address := 0x02E0

/-- Where the address of a routine to be run before is stored. -/
def initad : Address := 0x02E2

/-- The bytes behind a marker at the front, with the offset of the first. -/
def skipMarker (offset : Nat) : List Byte → Nat × List Byte
  | 0xFF :: 0xFF :: bytes => (offset + 2, bytes)
  | bytes => (offset, bytes)

theorem length_skipMarker (offset : Nat) (bytes : List Byte) :
    (skipMarker offset bytes).2.length ≤ bytes.length := by
  unfold skipMarker
  split
  · simp only [List.length_cons]
    omega
  · exact Nat.le_refl _

/-- One segment at the front of some bytes, with what stands behind it. -/
def segment (offset : Nat) : List Byte → Except BinaryError (Segment × List Byte)
  | f0 :: f1 :: l0 :: l1 :: bytes =>
    let first := Address.ofBytes f0 f1
    let last := Address.ofBytes l0 l1
    if last < first then .error (.reversed offset first last)
    else
      let length := last.toNat - first.toNat + 1
      let data := bytes.take length
      if data.length < length then .error (.truncatedData first last)
      else .ok (⟨first, data⟩, bytes.drop length)
  | _ => .error (.truncatedHeader offset)

theorem length_of_segment {offset : Nat} {bytes rest : List Byte} {s : Segment}
    (h : segment offset bytes = .ok (s, rest)) : rest.length < bytes.length := by
  unfold segment at h
  split at h
  · simp only at h
    split at h
    · exact absurd h (by simp)
    · split at h
      · exact absurd h (by simp)
      · cases h
        simp
        omega
  · exact absurd h (by simp)

/-- The segments in some bytes, the first of which is at an offset of the file. -/
def parseSegments (offset : Nat) (bytes : List Byte) : Except BinaryError (List Segment) :=
  if bytes = [] then .ok []
  else
    match _h : segment (skipMarker offset bytes).1 (skipMarker offset bytes).2 with
    | .error e => .error e
    | .ok (s, rest) =>
      match parseSegments ((skipMarker offset bytes).1 + 4 + s.data.length) rest with
      | .error e => .error e
      | .ok segments => .ok (s :: segments)
termination_by bytes.length
decreasing_by exact Nat.lt_of_lt_of_le (length_of_segment _h) (length_skipMarker offset bytes)

def parse (bytes : List Byte) : Except BinaryError Binary :=
  if bytes.take 2 = [0xFF, 0xFF] then (parseSegments 0 bytes).map Binary.mk
  else .error (.header (bytes.take 2))

/-- The address that the last segment which starts at a location carries. -/
def vector? (b : Binary) (location : Address) : Option Address :=
  b.segments.reverse.findSome? fun s =>
    match s.data with
    | low :: high :: _ => if s.address = location then some (.ofBytes low high) else none
    | _ => none

def runAddress (b : Binary) : Option Address := b.vector? runad

/-- The address of a routine to be run before. -/
def initAddress (b : Binary) : Option Address := b.vector? initad

end Binary

end Atari
