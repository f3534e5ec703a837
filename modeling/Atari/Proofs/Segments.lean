import Atari.Machine.Load
import Atari.Proofs.Words

/-!
# The format of Atari binaries

What the bytes of a file must be for its segments to be read, and what is told about other files.

* `Segment.Item`, `Binary.Items`, `Binary.Written`: the format;
* `BinaryError.Tells`: what an error tells about a place in the file;
* **`Binary.parse_written`**: reading accepts exactly the format, and what it reads can be stored.
-/

namespace Atari

/-! ## The format -/

/-- The bytes of a segment in a file: its first and its last address, low byte first, and a byte for
each address from the first to the last. -/
inductive Segment.Item : List Byte → Segment → Prop
  | mk {f₀ f₁ l₀ l₁ : Byte} {data : List Byte} :
    Address.ofBytes f₀ f₁ ≤ Address.ofBytes l₀ l₁ →
    data.length = (Address.ofBytes l₀ l₁).toNat - (Address.ofBytes f₀ f₁).toNat + 1 →
    Item (f₀ :: f₁ :: l₀ :: l₁ :: data) ⟨.ofBytes f₀ f₁, data⟩

namespace Binary

/-- Segments behind each other. One with a marker can start anywhere; the address of one without must
not look like a marker. -/
inductive Items : List Byte → List Segment → Prop
  | nil : Items [] []
  | marked {item rest : List Byte} {s : Segment} {segments : List Segment} :
    s.Item item → Items rest segments → Items (0xFF :: 0xFF :: (item ++ rest)) (s :: segments)
  | plain {item rest : List Byte} {s : Segment} {segments : List Segment} :
    s.Item item → s.address ≠ 0xFFFF → Items rest segments → Items (item ++ rest) (s :: segments)

/-- The bytes of a file with some segments: the marker, the first segment and the others. -/
inductive Written : List Byte → List Segment → Prop
  | mk {item rest : List Byte} {s : Segment} {segments : List Segment} :
    s.Item item → Items rest segments → Written (0xFF :: 0xFF :: (item ++ rest)) (s :: segments)

/-- The address at an offset of a file, low byte first. -/
def word? (file : List Byte) (offset : Nat) : Option Address :=
  match file.drop offset with
  | low :: high :: _ => some (.ofBytes low high)
  | _ => none

end Binary

/-- What an error tells about a file. Each place that it names is in the file. -/
def BinaryError.Tells (file : List Byte) : BinaryError → Prop
  | header bytes => bytes = file.take 2 ∧ bytes ≠ [0xFF, 0xFF]
  | truncatedHeader offset => offset ≤ file.length ∧ file.length < offset + 4
  | reversed offset first last =>
    Binary.word? file offset = some first ∧ Binary.word? file (offset + 2) = some last ∧ last < first
  | truncatedData first last => ∃ offset,
    Binary.word? file offset = some first ∧ Binary.word? file (offset + 2) = some last ∧
      first ≤ last ∧ file.length < offset + 4 + (last.toNat - first.toNat + 1)

/-! ## One segment -/

namespace Segment

variable {bytes : List Byte} {s : Segment}

theorem Item.data_ne_nil (h : s.Item bytes) : s.data ≠ [] := by
  cases h with
  | mk _ length =>
    rintro rfl
    simp at length

theorem Item.inside (h : s.Item bytes) : s.address.toNat + s.data.length ≤ Memory.size := by
  cases h with
  | @mk f₀ f₁ l₀ l₁ data ordered length =>
    have last : (Address.ofBytes l₀ l₁).toNat < 65536 := UInt16.toNat_lt _
    have ordered : (Address.ofBytes f₀ f₁).toNat ≤ (Address.ofBytes l₀ l₁).toNat := ordered
    show (Address.ofBytes f₀ f₁).toNat + data.length ≤ 65536
    omega

theorem poke_ok (h : s.address.toNat + s.data.length ≤ Memory.size) (b : Board) :
    ∃ c, b.poke s.address s.data = .ok c := by
  unfold Board.poke Board.pokeWith
  rw [if_pos h]
  exact ⟨_, rfl⟩

end Segment

namespace Binary

open Segment

variable {offset : Nat} {bytes rest file : List Byte} {s : Segment} {segments : List Segment}

theorem segment_ok_iff :
    segment offset bytes = .ok (s, rest) ↔ ∃ item, s.Item item ∧ bytes = item ++ rest := by
  constructor
  · intro h
    unfold segment at h
    split at h
    · rename_i f₀ f₁ l₀ l₁ bytes
      simp only at h
      split at h
      · cases h
      · rename_i ordered
        split at h
        · cases h
        · rename_i complete
          cases h
          refine ⟨_, .mk (UInt16.not_lt.mp ordered) ?_, ?_⟩
          · simp at complete ⊢
            omega
          · simp [List.take_append_drop]
    · cases h
  · rintro ⟨item, h, rfl⟩
    cases h with
    | @mk f₀ f₁ l₀ l₁ data ordered length =>
      simp only [List.cons_append, segment]
      rw [if_neg (UInt16.not_lt.mpr ordered), ← length]
      simp

/-- An error of a segment tells about the place where it should stand. -/
theorem segment_error {e : BinaryError} (h : segment offset bytes = .error e)
    (place : file.drop offset = bytes) (inside : offset ≤ file.length) : e.Tells file := by
  have length : file.length = offset + bytes.length := by
    rw [← place, List.length_drop]
    omega
  unfold segment at h
  split at h
  · rename_i f₀ f₁ l₀ l₁ bytes
    have first : word? file offset = some (.ofBytes f₀ f₁) := by
      rw [word?, place]
    have last : word? file (offset + 2) = some (.ofBytes l₀ l₁) := by
      rw [word?, ← List.drop_drop, place]
      rfl
    simp only at h
    split at h
    · rename_i reversed
      cases h
      exact ⟨first, last, reversed⟩
    · rename_i ordered
      split at h
      · rename_i short
        cases h
        refine ⟨offset, first, last, UInt16.not_lt.mp ordered, ?_⟩
        simp at short length
        omega
      · cases h
  · rename_i short
    cases h
    refine ⟨inside, ?_⟩
    rw [length]
    match bytes, short with
    | [], _ | [_], _ | [_, _], _ | [_, _, _], _ => simp
    | _ :: _ :: _ :: _ :: _, short => exact absurd rfl (short _ _ _ _ _)

/-! ## The segments of a file -/

theorem skipMarker_cases (offset : Nat) (bytes : List Byte) :
    (bytes = 0xFF :: 0xFF :: (skipMarker offset bytes).2 ∧ (skipMarker offset bytes).1 = offset + 2) ∨
      (skipMarker offset bytes = (offset, bytes) ∧ bytes.take 2 ≠ [0xFF, 0xFF]) := by
  unfold skipMarker
  split
  · exact .inl ⟨rfl, rfl⟩
  · rename_i unmarked
    refine .inr ⟨rfl, fun marked => ?_⟩
    match bytes, marked with
    | _ :: _ :: rest, marked =>
      simp only [List.take_succ_cons, List.take_zero, List.cons.injEq] at marked
      obtain ⟨rfl, rfl, -⟩ := marked
      exact unmarked rest rfl

theorem skipMarker_item {item : List Byte} (h : s.Item item) (unmarked : s.address ≠ 0xFFFF)
    (offset : Nat) (rest : List Byte) :
    skipMarker offset (item ++ rest) = (offset, item ++ rest) := by
  obtain ⟨marked, -⟩ | ⟨plain, -⟩ := skipMarker_cases offset (item ++ rest)
  · cases h with
    | mk ordered length =>
      simp only [List.cons_append, List.cons.injEq] at marked
      obtain ⟨rfl, rfl, -⟩ := marked
      exact absurd rfl unmarked
  · exact plain

theorem item_address_ne {item : List Byte} (h : s.Item item)
    (unmarked : (item ++ rest).take 2 ≠ [0xFF, 0xFF]) : s.address ≠ 0xFFFF := by
  cases h with
  | @mk f₀ f₁ l₀ l₁ data =>
    intro e
    have e : Address.ofBytes f₀ f₁ = 0xFFFF := e
    have low : f₀ = 0xFF := by rw [← Address.low_ofBytes f₀ f₁, e]; rfl
    have high : f₁ = 0xFF := by rw [← Address.high_ofBytes f₀ f₁, e]; rfl
    exact unmarked (by rw [low, high]; rfl)

section Parsing

variable (more : bytes ≠ [])

include more

theorem parseSegments_of_error {e : BinaryError}
    (failed : segment (skipMarker offset bytes).1 (skipMarker offset bytes).2 = .error e) :
    parseSegments offset bytes = .error e := by
  rw [parseSegments, if_neg more]
  split
  · rename_i e' failed'
    rw [failed] at failed'
    cases failed'
    rfl
  · rename_i found
    rw [failed] at found
    cases found

theorem parseSegments_of_ok
    (found : segment (skipMarker offset bytes).1 (skipMarker offset bytes).2 = .ok (s, rest)) :
    parseSegments offset bytes =
      (parseSegments ((skipMarker offset bytes).1 + 4 + s.data.length) rest).map (s :: ·) := by
  rw [parseSegments, if_neg more]
  split
  · rename_i failed
    rw [found] at failed
    cases failed
  · rename_i s' rest' found'
    rw [found] at found'
    cases found'
    cases parseSegments ((skipMarker offset bytes).1 + 4 + s.data.length) rest <;> rfl

end Parsing

theorem items_of_segment
    (found : segment (skipMarker offset bytes).1 (skipMarker offset bytes).2 = .ok (s, rest))
    (others : Items rest segments) : Items bytes (s :: segments) := by
  obtain ⟨item, hs, front⟩ := segment_ok_iff.mp found
  obtain ⟨marked, -⟩ | ⟨plain, unmarked⟩ := skipMarker_cases offset bytes
  · rw [marked, front]
    exact .marked hs others
  · have front : bytes = item ++ rest := by rw [plain] at front; exact front
    rw [front] at unmarked ⊢
    exact .plain hs (item_address_ne hs unmarked) others

/-- **Segments are read exactly from their format.** -/
theorem parseSegments_ok_iff : parseSegments offset bytes = .ok segments ↔ Items bytes segments := by
  constructor
  · intro h
    -- The induction follows the recursion: a segment in front, and the bytes behind it.
    induction offset, bytes using parseSegments.induct generalizing segments with
    | case1 offset =>
      rw [parseSegments, if_pos rfl] at h
      cases h
      exact .nil
    | case2 offset bytes more e failed =>
      rw [parseSegments_of_error more failed] at h
      cases h
    | case3 offset bytes more s rest found e failed ih =>
      rw [parseSegments_of_ok more found, failed] at h
      cases h
    | case4 offset bytes more s rest found others parsed ih =>
      rw [parseSegments_of_ok more found, parsed] at h
      cases h
      exact items_of_segment found (ih parsed)
  · intro h
    induction h generalizing offset with
    | nil => rw [parseSegments, if_pos rfl]
    | @marked item rest s segments hs _ ih =>
      have found : segment (offset + 2) (item ++ rest) = .ok (s, rest) :=
        segment_ok_iff.mpr ⟨item, hs, rfl⟩
      rw [parseSegments_of_ok (List.cons_ne_nil _ _) (by exact found), ih]
      rfl
    | @plain item rest s segments hs unmarked _ ih =>
      have skip := skipMarker_item hs unmarked offset rest
      have found : segment offset (item ++ rest) = .ok (s, rest) := segment_ok_iff.mpr ⟨item, hs, rfl⟩
      have more : item ++ rest ≠ [] := by
        cases hs
        exact List.cons_ne_nil _ _
      rw [parseSegments_of_ok more (by rw [skip, found]), ih]
      rfl

theorem skipMarker_place (place : file.drop offset = bytes) (inside : offset ≤ file.length) :
    file.drop (skipMarker offset bytes).1 = (skipMarker offset bytes).2 ∧
      (skipMarker offset bytes).1 ≤ file.length := by
  obtain ⟨marked, moved⟩ | ⟨plain, -⟩ := skipMarker_cases offset bytes
  · have length : file.length = offset + bytes.length := by
      rw [← place, List.length_drop]
      omega
    rw [moved, ← List.drop_drop, place, marked]
    refine ⟨rfl, ?_⟩
    rw [length, marked]
    simp only [List.length_cons]
    omega
  · rw [plain]
    exact ⟨place, inside⟩

/-- **An error tells about the file.** The offset grows with the bytes that were read, so it stays the
place where the bytes stand. -/
theorem parseSegments_error {e : BinaryError} (h : parseSegments offset bytes = .error e)
    (place : file.drop offset = bytes) (inside : offset ≤ file.length) : e.Tells file := by
  induction offset, bytes using parseSegments.induct with
  | case1 offset =>
    rw [parseSegments, if_pos rfl] at h
    cases h
  | case2 offset bytes more e' failed =>
    rw [parseSegments_of_error more failed] at h
    cases h
    obtain ⟨at', inside'⟩ := skipMarker_place place inside
    exact segment_error failed at' inside'
  | case3 offset bytes more s rest found e' failed ih =>
    rw [parseSegments_of_ok more found, failed] at h
    cases h
    obtain ⟨item, hs, front⟩ := segment_ok_iff.mp found
    obtain ⟨at', inside'⟩ := skipMarker_place place inside
    have length : item.length = 4 + s.data.length := by
      cases hs
      simp
      omega
    have behind : file.drop ((skipMarker offset bytes).1 + 4 + s.data.length) = rest := by
      rw [Nat.add_assoc, ← List.drop_drop, at', front, ← length, List.drop_left]
    refine ih failed behind ?_
    have total := congrArg List.length at'
    rw [front, List.length_drop, List.length_append, length] at total
    omega
  | case4 offset bytes more s rest found others parsed ih =>
    rw [parseSegments_of_ok more found, parsed] at h
    cases h

theorem written_iff : Written bytes segments ↔ bytes.take 2 = [0xFF, 0xFF] ∧ Items bytes segments := by
  constructor
  · rintro ⟨hs, others⟩
    exact ⟨rfl, .marked hs others⟩
  · rintro ⟨begins, items⟩
    cases items with
    | nil => cases begins
    | marked hs others => exact .mk hs others
    | plain hs unmarked _ =>
      cases hs with
      | mk =>
        simp only [List.cons_append, List.take_succ_cons, List.take_zero, List.cons.injEq] at begins
        obtain ⟨rfl, rfl, -⟩ := begins
        exact absurd rfl unmarked

theorem Items.item (h : Items bytes segments) : ∀ s ∈ segments, ∃ item, s.Item item := by
  induction h with
  | nil => exact fun _ hs => nomatch hs
  | marked hs _ ih | plain hs _ _ ih => exact List.forall_mem_cons.mpr ⟨⟨_, hs⟩, ih⟩

theorem loadSegments_ok (name : String) {segments : List Segment}
    (inside : ∀ s ∈ segments, s.address.toNat + s.data.length ≤ Memory.size) (p : Processor) :
    ∃ q, segments.forM (Source.loadSegment name) p = .ok ⟨⟩ q := by
  induction segments generalizing p with
  | nil => exact ⟨p, rfl⟩
  | cons s segments ih =>
    obtain ⟨first, others⟩ := List.forall_mem_cons.mp inside
    obtain ⟨c, stored⟩ := poke_ok first p.board
    obtain ⟨q, loaded⟩ : ∃ q, Source.loadSegment name s p = .ok () q := by
      unfold Source.loadSegment Loading.store
      dsimp only [bind, EStateM.bind, get, getThe, MonadStateOf.get, EStateM.get]
      rw [stored]
      exact ⟨_, rfl⟩
    obtain ⟨r, rest⟩ := ih others q
    refine ⟨r, ?_⟩
    show EStateM.bind (Source.loadSegment name s) (fun _ => segments.forM (Source.loadSegment name)) p = _
    rw [EStateM.bind, loaded]
    exact rest

theorem parse_ok_iff : parse file = .ok ⟨segments⟩ ↔ Written file segments := by
  have read : parseSegments 0 file = .ok segments ↔ Items file segments := parseSegments_ok_iff
  rw [written_iff, ← read, parse]
  by_cases begins : file.take 2 = [0xFF, 0xFF]
  · rw [if_pos begins]
    cases parseSegments 0 file <;> simp [Except.map, begins]
  · simp [begins]

theorem inside_of_parse {b : Binary} (h : parse file = .ok b) :
    ∀ s ∈ b.segments, s.address.toNat + s.data.length ≤ Memory.size := by
  intro s hs
  obtain ⟨item, hi⟩ := (written_iff.mp (parse_ok_iff.mp h)).2.item s hs
  exact hi.inside

theorem parse_error {e : BinaryError} (h : parse file = .error e) : e.Tells file := by
  unfold parse at h
  split at h
  · cases parsed : parseSegments 0 file with
    | ok segments =>
      rw [parsed] at h
      cases h
    | error e' =>
      rw [parsed] at h
      cases h
      exact parseSegments_error parsed rfl (Nat.zero_le _)
  · rename_i other
    cases h
    exact ⟨rfl, other⟩

/-- **Reading accepts exactly the format of Atari binaries.** Whatever the bytes are, reading ends with
the segments that are written there, or with an error about a place in the file. Each segment that is
read has a byte and ends in memory, so that storing it is never refused. -/
theorem parse_written (file : List Byte) :
    (∀ segments, parse file = .ok ⟨segments⟩ ↔ Written file segments) ∧
      ((∃ b, parse file = .ok b) ∨ ∃ e, parse file = .error e ∧ e.Tells file) ∧
      ∀ b, parse file = .ok b →
        (∀ s ∈ b.segments, s.data ≠ [] ∧ s.address.toNat + s.data.length ≤ Memory.size ∧
          ∀ board : Board, ∃ c, board.poke s.address s.data = .ok c) ∧
        ∀ name p, ∃ q, b.segments.forM (Source.loadSegment name) p = .ok ⟨⟩ q := by
  refine ⟨fun _ => parse_ok_iff, ?_, fun b h => ?_⟩
  · cases h : parse file with
    | ok b => exact .inl ⟨b, rfl⟩
    | error e => exact .inr ⟨e, rfl, parse_error h⟩
  · have items := (written_iff.mp (parse_ok_iff.mp h)).2.item
    refine ⟨fun s hs => ?_, fun name p => loadSegments_ok name (inside_of_parse h) p⟩
    obtain ⟨item, hi⟩ := items s hs
    exact ⟨hi.data_ne_nil, hi.inside, poke_ok hi.inside⟩

end Binary

end Atari
