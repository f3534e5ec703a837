import Atari.Proofs.Machine.Initial

/-!
# The vectors of an Atari binary

Memory holds the address of the program at `RUNAD` and that of another routine at `INITAD` once the segments are
loaded. What is told of a binary is something else: the address in the last segment that starts at the place.
Both are the same for all bytes of the segments exactly if that segment is the last one to store there.

* `Segment.Touches`, `Segment.Carries`: segments that store at a vector, and those that are asked;
  `Binary.vector?_eq_some_iff`: the one that tells;
* `Binary.Faithful`: what is told is what memory holds; `Binary.faithful_iff`: the bytes that this is about;
* `Binary.Settled`: the last segment that stores there is one that is asked; `Settled.faithful`: then it is true;
* `Binary.painted`: the same segments with other bytes; `Binary.not_faithful_painted`: else it can be false;
* **`Binary.vectors_told`**: what is told of `RUNAD` and `INITAD`.
-/

namespace Atari

section Last

variable {α β : Type} {xs : List α}

theorem findSome?_reverse_eq_some_iff {f : α → Option β} {b : β} : xs.reverse.findSome? f = some b ↔
    ∃ before a behind, xs = before ++ a :: behind ∧ f a = some b ∧ ∀ x ∈ behind, f x = none := by
  rw [List.findSome?_eq_some_iff]
  constructor
  · rintro ⟨us, a, vs, split, found, idle⟩
    refine ⟨vs.reverse, a, us.reverse, ?_, found, fun x hx => idle x (List.mem_reverse.mp hx)⟩
    rw [← List.reverse_inj, split]
    simp
  · rintro ⟨before, a, behind, rfl, found, idle⟩
    exact ⟨behind.reverse, a, before.reverse, by simp, found, fun x hx => idle x (List.mem_reverse.mp hx)⟩

theorem exists_last {P : α → Prop} [DecidablePred P] {x : α} (hx : x ∈ xs) (holds : P x) :
    ∃ before a behind, xs = before ++ a :: behind ∧ P a ∧ ∀ y ∈ behind, ¬P y := by
  cases found : xs.reverse.findSome? (fun y => if P y then some y else none) with
  | none =>
    have idle := List.findSome?_eq_none_iff.mp found x (List.mem_reverse.mpr hx)
    rw [if_pos holds] at idle
    cases idle
  | some a =>
    obtain ⟨before, y, behind, split, found, idle⟩ := findSome?_reverse_eq_some_iff.mp found
    refine ⟨before, y, behind, split, (Option.ite_none_right_eq_some.mp found).1, fun z hz => ?_⟩
    simpa using idle z hz

end Last

namespace Segment

variable {s : Segment} {location a w : Address}

theorem isSome_byte?_iff :
    (s.byte? a).isSome ↔ s.address.toNat ≤ a.toNat ∧ a.toNat < s.address.toNat + s.data.length := by
  unfold byte?
  split
  · simp only [Option.isSome_iff_exists, List.getElem?_eq_some_iff]
    constructor
    · rintro ⟨_, short, -⟩
      omega
    · rintro ⟨-, short⟩
      exact ⟨_, by omega, rfl⟩
  · simp
    omega

/-- Where a segment stores: its address, and how many bytes it has. -/
def place (s : Segment) : Address × Nat := (s.address, s.data.length)

theorem isSome_byte?_congr {t : Segment} (same : s.place = t.place) (a : Address) :
    (s.byte? a).isSome ↔ (t.byte? a).isSome := by
  obtain ⟨address, length⟩ := Prod.mk.inj same
  rw [isSome_byte?_iff, isSome_byte?_iff, address, length]

/-- A segment with a byte of the word at a location. -/
def Touches (s : Segment) (location : Address) : Prop :=
  (s.byte? location).isSome ∨ (s.byte? (location + 1)).isSome

/-- A segment that starts with the word at a location. -/
def Carries (s : Segment) (location : Address) : Prop := s.address = location ∧ 2 ≤ s.data.length

instance (s : Segment) (location : Address) : Decidable (s.Touches location) :=
  inferInstanceAs (Decidable (_ ∨ _))

instance (s : Segment) (location : Address) : Decidable (s.Carries location) :=
  inferInstanceAs (Decidable (_ ∧ _))

theorem touches_congr {t : Segment} (same : s.place = t.place) : s.Touches location ↔ t.Touches location :=
  or_congr (isSome_byte?_congr same _) (isSome_byte?_congr same _)

theorem carries_congr {t : Segment} (same : s.place = t.place) : s.Carries location ↔ t.Carries location := by
  obtain ⟨address, length⟩ := Prod.mk.inj same
  rw [Carries, Carries, address, length]

theorem not_touches_iff :
    ¬s.Touches location ↔ s.byte? location = none ∧ s.byte? (location + 1) = none := by
  simp [Touches]

/-- The word that a segment tells of a location. -/
def word? (s : Segment) (location : Address) : Option Address :=
  match s.data with
  | low :: high :: _ => if s.address = location then some (.ofBytes low high) else none
  | _ => none

theorem word?_eq_some_iff : s.word? location = some w ↔
    s.address = location ∧ ∃ low high rest, s.data = low :: high :: rest ∧ w = .ofBytes low high := by
  unfold word?
  split
  · rename_i low high rest data
    simp only [data, List.cons.injEq, Option.ite_none_right_eq_some, Option.some.injEq]
    constructor
    · rintro ⟨start, rfl⟩
      exact ⟨start, low, high, rest, ⟨rfl, rfl, rfl⟩, rfl⟩
    · rintro ⟨start, _, _, _, ⟨rfl, rfl, rfl⟩, rfl⟩
      exact ⟨start, rfl⟩
  · rename_i short
    constructor
    · exact fun h => nomatch h
    · rintro ⟨-, low, high, rest, data, -⟩
      exact absurd data (short low high rest)

theorem Carries.exists_word (h : s.Carries location) :
    ∃ low high rest, s.data = low :: high :: rest ∧ s.word? location = some (.ofBytes low high) := by
  obtain ⟨start, long⟩ := h
  match data : s.data, long with
  | low :: high :: rest, _ =>
    exact ⟨low, high, rest, rfl, word?_eq_some_iff.mpr ⟨start, low, high, rest, data, rfl⟩⟩

theorem word?_eq_none_iff : s.word? location = none ↔ ¬s.Carries location := by
  constructor
  · intro none carries
    obtain ⟨low, high, rest, -, word⟩ := carries.exists_word
    rw [none] at word
    cases word
  · intro other
    cases word : s.word? location with
    | none => rfl
    | some w =>
      obtain ⟨start, low, high, rest, data, -⟩ := word?_eq_some_iff.mp word
      exact absurd ⟨start, by simp [data]⟩ other

variable (next : (location + 1).toNat = location.toNat + 1)

include next

theorem Carries.bytes {low high : Byte} {rest : List Byte} (h : s.Carries location)
    (data : s.data = low :: high :: rest) :
    s.byte? location = some low ∧ s.byte? (location + 1) = some high := by
  obtain ⟨rfl, -⟩ := h
  have one : s.address.toNat + 1 - s.address.toNat = 1 := by omega
  constructor
  · rw [byte?, if_pos (Nat.le_refl _), Nat.sub_self, data]
    rfl
  · rw [byte?, next, if_pos (Nat.le_succ _), one, data]
    rfl

theorem Carries.touches (h : s.Carries location) : s.Touches location := by
  obtain ⟨low, high, rest, data, -⟩ := h.exists_word
  exact .inl (by rw [(h.bytes next data).1]; rfl)

end Segment

namespace Binary

open Segment

variable {b : Binary} {location w : Address} {told : Option Address}

theorem vector?_eq_some_iff : b.vector? location = some w ↔ ∃ before s behind low high rest,
    b.segments = before ++ s :: behind ∧ s.address = location ∧ s.data = low :: high :: rest ∧
      w = .ofBytes low high ∧ ∀ t ∈ behind, ¬t.Carries location := by
  have asked : b.vector? location = b.segments.reverse.findSome? (·.word? location) := rfl
  simp only [asked, findSome?_reverse_eq_some_iff, word?_eq_some_iff, word?_eq_none_iff]
  constructor
  · rintro ⟨before, s, behind, split, ⟨start, low, high, rest, data, word⟩, others⟩
    exact ⟨before, s, behind, low, high, rest, split, start, data, word, others⟩
  · rintro ⟨before, s, behind, low, high, rest, split, start, data, word, others⟩
    exact ⟨before, s, behind, split, ⟨start, low, high, rest, data, word⟩, others⟩

theorem vector?_eq_none (others : ∀ s ∈ b.segments, ¬s.Carries location) : b.vector? location = none := by
  cases told : b.vector? location with
  | none => rfl
  | some w =>
    obtain ⟨before, s, behind, low, high, rest, split, start, data, -⟩ := vector?_eq_some_iff.mp told
    exact absurd ⟨start, by simp [data]⟩ (others s (by simp [split]))

/-- Loading the segments stores a byte at an address. -/
def Stores (b : Binary) (a : Address) : Prop := ∃ s ∈ b.segments, (s.byte? a).isSome

instance (b : Binary) (a : Address) : Decidable (b.Stores a) :=
  inferInstanceAs (Decidable (∃ s ∈ b.segments, (s.byte? a).isSome))

/-- What is told is the word that memory holds once the segments are loaded, if they store both of its bytes,
and there is nothing told if they store neither. -/
structure Faithful (b : Binary) (location : Address) (told : Option Address) : Prop where
  both : b.Stores location → b.Stores (location + 1) → ∀ file (p : Processor), p.Bare →
    ∃ q, b.segments.forM (Source.loadSegment file) p = .ok ⟨⟩ q ∧ told = some (q.memory.pointer location false)
  neither : ¬b.Stores location → ¬b.Stores (location + 1) → told = none

/-- The last segment that stores in the word starts with it. -/
def Settled (b : Binary) (location : Address) : Prop := ∃ before s behind,
  b.segments = before ++ s :: behind ∧ s.Carries location ∧ ∀ t ∈ behind, ¬t.Touches location

theorem stores_iff {a : Address} : b.Stores a ↔ ∃ v, lastByte? b.segments a = some v := by
  unfold lastByte?
  rw [← Option.isSome_iff_exists, List.findSome?_isSome_iff]
  simp [Stores]

/-- A truthful answer is made of the last bytes for the two addresses. -/
theorem faithful_iff (inside : ∀ s ∈ b.segments, s.address.toNat + s.data.length ≤ Memory.size) :
    b.Faithful location told ↔
      (∀ low high, lastByte? b.segments location = some low → lastByte? b.segments (location + 1) = some high →
        told = some (.ofBytes low high)) ∧
      (lastByte? b.segments location = none → lastByte? b.segments (location + 1) = none → told = none) := by
  have word {low high : Byte} {file : String} {p q : Processor} (bare : p.Bare)
      (loaded : b.segments.forM (Source.loadSegment file) p = .ok ⟨⟩ q)
      (hl : lastByte? b.segments location = some low) (hh : lastByte? b.segments (location + 1) = some high) :
      q.memory.pointer location false = .ofBytes low high := by
    have memory := (Source.loaded_segments bare loaded).memory
    show Address.ofBytes (q.memory.peek location) (q.memory.peek (location + 1)) = _
    rw [memory, memory, hl, hh]
    rfl
  constructor
  · rintro ⟨both, neither⟩
    refine ⟨fun low high hl hh => ?_, fun hl hh => neither ?_ ?_⟩
    · have bare := Machine.bare_blank none {}
      obtain ⟨q, loaded, rfl⟩ := both (stores_iff.mpr ⟨low, hl⟩) (stores_iff.mpr ⟨high, hh⟩) "" _ bare
      rw [word bare loaded hl hh]
    · simp [stores_iff, hl]
    · simp [stores_iff, hh]
  · rintro ⟨both, neither⟩
    refine ⟨fun hl hh file p bare => ?_, fun hl hh => neither ?_ ?_⟩
    · obtain ⟨low, hl⟩ := stores_iff.mp hl
      obtain ⟨high, hh⟩ := stores_iff.mp hh
      obtain ⟨q, loaded⟩ := loadSegments_ok file inside p
      exact ⟨q, loaded, by rw [word bare loaded hl hh]; exact both low high hl hh⟩
    · rw [stores_iff] at hl
      exact Option.eq_none_iff_forall_ne_some.mpr fun v hv => hl ⟨v, hv⟩
    · rw [stores_iff] at hh
      exact Option.eq_none_iff_forall_ne_some.mpr fun v hv => hh ⟨v, hv⟩

section Layout

variable (next : (location + 1).toNat = location.toNat + 1)

include next

theorem Settled.stores (h : b.Settled location) : b.Stores location ∧ b.Stores (location + 1) := by
  obtain ⟨before, s, behind, split, carries, -⟩ := h
  obtain ⟨low, high, rest, data, -⟩ := carries.exists_word
  obtain ⟨hl, hh⟩ := carries.bytes next data
  have mem : s ∈ b.segments := by simp [split]
  exact ⟨⟨s, mem, by rw [hl]; rfl⟩, ⟨s, mem, by rw [hh]; rfl⟩⟩

theorem vector?_of_not_stores (low : ¬b.Stores location) : b.vector? location = none := by
  refine vector?_eq_none fun s hs carries => low ⟨s, hs, ?_⟩
  obtain ⟨l, h, rest, data, -⟩ := carries.exists_word
  rw [(carries.bytes next data).1]
  rfl

theorem Settled.faithful (inside : ∀ s ∈ b.segments, s.address.toNat + s.data.length ≤ Memory.size)
    (h : b.Settled location) : b.Faithful location (b.vector? location) := by
  obtain ⟨before, s, behind, split, carries, idle⟩ := h
  obtain ⟨low, high, rest, data, -⟩ := carries.exists_word
  obtain ⟨hl, hh⟩ := carries.bytes next data
  have told : b.vector? location = some (.ofBytes low high) := vector?_eq_some_iff.mpr
    ⟨before, s, behind, low, high, rest, split, carries.1, data, rfl, fun t ht hc => idle t ht (hc.touches next)⟩
  have last : lastByte? b.segments location = some low := findSome?_reverse_eq_some_iff.mpr
    ⟨before, s, behind, split, hl, fun t ht => (not_touches_iff.mp (idle t ht)).1⟩
  have last' : lastByte? b.segments (location + 1) = some high := findSome?_reverse_eq_some_iff.mpr
    ⟨before, s, behind, split, hh, fun t ht => (not_touches_iff.mp (idle t ht)).2⟩
  refine (faithful_iff inside).mpr ⟨fun low' high' hl' hh' => ?_, fun none => ?_⟩
  · rw [last] at hl'
    rw [last'] at hh'
    cases hl'
    cases hh'
    exact told
  · rw [last] at none
    cases none

end Layout

end Binary

/-! ## Other bytes in the same places -/

namespace Segment

variable {s : Segment} {location a w : Address}

/-- The segment with zeros for its bytes if it starts with the word at a location, and else with ones. -/
def painted (location : Address) (s : Segment) : Segment :=
  ⟨s.address, List.replicate s.data.length (if s.Carries location then 0x00 else 0xFF)⟩

theorem byte?_painted (location : Address) (s : Segment) (a : Address) :
    (s.painted location).byte? a = (s.byte? a).map fun _ => if s.Carries location then 0x00 else 0xFF := by
  unfold byte? painted
  simp only [List.getElem?_replicate]
  split
  · split
    · rename_i short
      rw [List.getElem?_eq_getElem short]
      rfl
    · rename_i long
      rw [List.getElem?_eq_none (Nat.not_lt.mp long)]
      rfl
  · rfl

theorem word?_painted (told : (s.painted location).word? location = some w) : w = 0 := by
  obtain ⟨start, low, high, rest, data, rfl⟩ := word?_eq_some_iff.mp told
  have data : List.replicate s.data.length (if s.Carries location then 0x00 else 0xFF) = low :: high :: rest := data
  have length := congrArg List.length data
  rw [List.length_replicate, List.length_cons, List.length_cons] at length
  have carries : s.Carries location := ⟨start, by omega⟩
  rw [if_pos carries] at data
  have zero : ∀ v ∈ low :: high :: rest, v = 0x00 := by
    rw [← data]
    exact fun v hv => List.eq_of_mem_replicate hv
  rw [zero low (by simp), zero high (by simp)]
  rfl

theorem exists_item (s : Segment) (some : s.data ≠ [])
    (inside : s.address.toNat + s.data.length ≤ Memory.size) : ∃ item, s.Item item := by
  obtain ⟨start, data⟩ := s
  have positive : 0 < data.length := List.length_pos_iff.mpr some
  have inside : start.toNat + data.length ≤ 65536 := inside
  let last : Address := UInt16.ofNat (start.toNat + data.length - 1)
  have number : last.toNat = start.toNat + data.length - 1 := UInt16.toNat_ofNat_of_lt' (by
    show start.toNat + data.length - 1 < 65536
    omega)
  have item : Item (start.low :: start.high :: last.low :: last.high :: data)
      ⟨.ofBytes start.low start.high, data⟩ := by
    refine .mk ?_ ?_ <;> rw [Address.ofBytes_low_high, Address.ofBytes_low_high]
    · rw [UInt16.le_iff_toNat_le]
      omega
    · omega
  rw [Address.ofBytes_low_high] at item
  exact ⟨_, item⟩

end Segment

namespace Binary

open Segment

variable {b : Binary} {location w : Address} {segments : List Segment}

/-- Where the segments store, one after the other. -/
def layout (b : Binary) : List (Address × Nat) := b.segments.map place

def painted (b : Binary) (location : Address) : Binary := ⟨b.segments.map (·.painted location)⟩

theorem layout_painted : (b.painted location).layout = b.layout := by
  simp [layout, painted, Segment.painted, place]

section Congr

variable {c : Binary} (same : b.layout = c.layout)

include same

theorem Stores.congr {a : Address} (h : b.Stores a) : c.Stores a := by
  obtain ⟨s, hs, stores⟩ := h
  have mem : s.place ∈ b.layout := List.mem_map_of_mem hs
  rw [same] at mem
  obtain ⟨t, ht, place⟩ := List.mem_map.mp mem
  exact ⟨t, ht, (isSome_byte?_congr place a).mpr stores⟩

theorem Settled.congr (h : b.Settled location) : c.Settled location := by
  obtain ⟨before, s, behind, split, carries, idle⟩ := h
  have places : c.segments.map place = before.map place ++ s.place :: behind.map place := by
    rw [← List.map_cons, ← List.map_append, ← split]
    exact same.symm
  obtain ⟨before', rest, split', -, places⟩ := List.map_eq_append_iff.mp places
  obtain ⟨t, behind', rfl, place, places⟩ := List.map_eq_cons_iff.mp places
  refine ⟨before', t, behind', split', (carries_congr place).mpr carries, fun u hu => ?_⟩
  have mem : u.place ∈ behind.map Segment.place := places ▸ List.mem_map_of_mem hu
  obtain ⟨v, hv, place⟩ := List.mem_map.mp mem
  exact fun touches => idle v hv ((touches_congr place).mpr touches)

end Congr

theorem exists_items (all : ∀ s ∈ segments, ∃ item, s.Item item) : ∃ bytes, Items bytes segments := by
  induction segments with
  | nil => exact ⟨[], .nil⟩
  | cons s segments ih =>
    obtain ⟨⟨item, hs⟩, others⟩ := List.forall_mem_cons.mp all
    obtain ⟨bytes, rest⟩ := ih others
    exact ⟨_, .marked hs rest⟩

theorem exists_painted {file : List Byte} (location : Address) (h : parse file = .ok b) :
    ∃ file', parse file' = .ok (b.painted location) := by
  obtain ⟨segments⟩ := b
  have items := (written_iff.mp (parse_ok_iff.mp h)).2.item
  have written (s) (hs : s ∈ segments) : ∃ item, (s.painted location).Item item := by
    obtain ⟨item, found⟩ := items s hs
    have some := List.length_pos_iff.mpr found.data_ne_nil
    refine exists_item _ (List.length_pos_iff.mp ?_) ?_
    · simpa [Segment.painted] using some
    · simpa [Segment.painted] using found.inside
  cases parse_ok_iff.mp h with
  | @mk item rest s segments hs others =>
    obtain ⟨first, others⟩ := List.forall_mem_cons.mp written
    obtain ⟨item, first⟩ := first
    obtain ⟨rest, others⟩ : ∃ rest, Items rest (segments.map (·.painted location)) :=
      exists_items (by simpa using others)
    exact ⟨_, parse_ok_iff.mpr (.mk first others)⟩

theorem stores_painted {a : Address} : (b.painted location).Stores a ↔ b.Stores a := by
  simp [Stores, painted, byte?_painted]

theorem vector?_painted (told : (b.painted location).vector? location = some w) : w = 0 := by
  obtain ⟨before, s, behind, low, high, rest, split, start, data, word, -⟩ := vector?_eq_some_iff.mp told
  have mem : s ∈ b.segments.map (·.painted location) := by
    show s ∈ (b.painted location).segments
    simp [split]
  obtain ⟨s, -, rfl⟩ := List.mem_map.mp mem
  exact word?_painted (word?_eq_some_iff.mpr ⟨start, low, high, rest, data, word⟩)

/-- If another segment stores in the word later, what is told of some bytes in these places is false. -/
theorem not_faithful_painted (inside : ∀ s ∈ b.segments, s.address.toNat + s.data.length ≤ Memory.size)
    (low : b.Stores location) (high : b.Stores (location + 1)) (unsettled : ¬b.Settled location) :
    ¬(b.painted location).Faithful location ((b.painted location).vector? location) := by
  intro faithful
  have inside' : ∀ s ∈ (b.painted location).segments, s.address.toNat + s.data.length ≤ Memory.size := by
    simpa [painted, Segment.painted] using inside
  obtain ⟨truth, -⟩ := (faithful_iff inside').mp faithful
  obtain ⟨l, hl⟩ := stores_iff.mp (stores_painted.mpr low)
  obtain ⟨h, hh⟩ := stores_iff.mp (stores_painted.mpr high)
  have zero : Address.ofBytes l h = 0 := vector?_painted (truth l h hl hh)
  -- The last segment that stores in the word does not start with it, so its bytes are ones.
  obtain ⟨s, hs, touches⟩ := low
  obtain ⟨before, s, behind, split, touches, idle⟩ :=
    exists_last (P := fun s => s.Touches location) hs (.inl touches)
  have other : ¬s.Carries location := fun carries => unsettled ⟨before, s, behind, split, carries, idle⟩
  have ones {a v} (found : s.byte? a = some v) (silent : ∀ t ∈ behind, t.byte? a = none) :
      lastByte? (b.painted location).segments a = some 0xFF := by
    refine findSome?_reverse_eq_some_iff.mpr ⟨before.map (·.painted location), s.painted location,
      behind.map (·.painted location), by simp [painted, split], ?_, ?_⟩
    · rw [byte?_painted, found, if_neg other]
      rfl
    · intro t ht
      obtain ⟨u, hu, rfl⟩ := List.mem_map.mp ht
      rw [byte?_painted, silent u hu]
      rfl
  obtain touches | touches := touches
  · obtain ⟨v, found⟩ := Option.isSome_iff_exists.mp touches
    rw [ones found fun t ht => (not_touches_iff.mp (idle t ht)).1] at hl
    cases hl
    have low := Address.low_ofBytes 0xFF h
    rw [zero] at low
    cases low
  · obtain ⟨v, found⟩ := Option.isSome_iff_exists.mp touches
    rw [ones found fun t ht => (not_touches_iff.mp (idle t ht)).2] at hh
    cases hh
    have high := Address.high_ofBytes l 0xFF
    rw [zero] at high
    cases high

/-! ## The two vectors -/

/-- What is told of a location is true for all bytes in the places of the segments, or the segments are not
settled there. -/
theorem faithful_layout_iff {file : List Byte} (next : (location + 1).toNat = location.toNat + 1)
    (parsed : parse file = .ok b) :
    (∀ file' c, parse file' = .ok c → c.layout = b.layout → c.Faithful location (c.vector? location)) ↔
      (b.Stores location → b.Stores (location + 1) → b.Settled location) := by
  constructor
  · intro faithful low high
    by_contra unsettled
    obtain ⟨file', painted⟩ := exists_painted location parsed
    exact not_faithful_painted (inside_of_parse parsed) low high unsettled (faithful file' _ painted layout_painted)
  · intro settles file' c parsed' same
    by_cases stores : b.Stores location ∧ b.Stores (location + 1)
    · exact ((settles stores.1 stores.2).congr same.symm).faithful next (inside_of_parse parsed')
    · exact ⟨fun low high => absurd ⟨low.congr same, high.congr same⟩ stores,
        fun low _ => vector?_of_not_stores next low⟩

/-- The places of the vectors, and what is told of them. -/
def vectors : List (Address × (Binary → Option Address)) := [(runad, runAddress), (initad, initAddress)]

/-- **What is told of the vectors.** Nothing is told of a vector to which no segment stores. An address is told
if it is in the last segment that starts at the vector. For all bytes that segments in these places can have, it
is the address in memory exactly if no other segment stores to the vector behind that one. -/
theorem vectors_told (file : List Byte) (b : Binary) (parsed : parse file = .ok b)
    (location : Address) (told : Binary → Option Address) (vector : (location, told) ∈ vectors) :
    (¬b.Stores location → ¬b.Stores (location + 1) → told b = none) ∧
    (∀ w, told b = some w ↔ ∃ before s behind low high rest,
      b.segments = before ++ s :: behind ∧ s.address = location ∧ s.data = low :: high :: rest ∧
        w = .ofBytes low high ∧ ∀ t ∈ behind, ¬t.Carries location) ∧
    ((∀ file' c, parse file' = .ok c → c.layout = b.layout → c.Faithful location (told c)) ↔
      (b.Stores location → b.Stores (location + 1) → b.Settled location)) := by
  obtain ⟨rfl, next⟩ : told = (·.vector? location) ∧ (location + 1).toNat = location.toNat + 1 := by
    rw [vectors, List.mem_cons, List.mem_singleton] at vector
    obtain ⟨⟨⟩⟩ | ⟨⟨⟩⟩ := vector <;> exact ⟨rfl, rfl⟩
  exact ⟨fun low _ => vector?_of_not_stores next low, fun w => vector?_eq_some_iff, faithful_layout_iff next parsed⟩

/-- A file with one segment for both vectors. -/
def together : List Byte := [0xFF, 0xFF, 0xE0, 0x02, 0xE3, 0x02, 0x00, 0x40, 0x00, 0x50]

/-- Both vectors are in the segment, but nothing is told of the second one. -/
theorem initAddress_together : ∃ b, parse together = .ok b ∧ b.Stores initad ∧ b.Stores (initad + 1) ∧
    b.runAddress = some 0x4000 ∧ b.initAddress = none ∧ ¬b.Faithful initad b.initAddress := by
  have parsed : parse together = .ok ⟨[⟨0x02E0, [0x00, 0x40, 0x00, 0x50]⟩]⟩ := by decide +kernel
  have low : lastByte? [⟨0x02E0, [0x00, 0x40, 0x00, 0x50]⟩] initad = some 0x00 := by decide
  have high : lastByte? [⟨0x02E0, [0x00, 0x40, 0x00, 0x50]⟩] (initad + 1) = some 0x50 := by decide
  refine ⟨_, parsed, by decide, by decide, by decide, by decide, fun faithful => ?_⟩
  have told := ((faithful_iff (inside_of_parse parsed)).mp faithful).1 _ _ low high
  cases told

/-- The run address of the program that ends with it is told, and no other address. -/
theorem vectors_told_game : ∃ b, parse Machine.game = .ok b ∧ b.runAddress = some 0x0601 ∧
    b.Faithful runad b.runAddress ∧ b.initAddress = none := by
  have parsed : parse Machine.game = .ok ⟨[⟨0x0600, [1, 2, 3, 4]⟩, ⟨0x02E0, [0x01, 0x06]⟩]⟩ := by decide +kernel
  obtain ⟨-, run, settled⟩ := vectors_told _ _ parsed runad runAddress (.head _)
  obtain ⟨absent, -⟩ := vectors_told _ _ parsed initad initAddress (.tail _ (.head _))
  refine ⟨_, parsed, (run _).mpr ?_, settled.mpr ?_ _ _ parsed rfl, absent (by decide) (by decide)⟩
  · exact ⟨[_], _, [], 0x01, 0x06, [], rfl, rfl, rfl, by decide, by simp⟩
  · exact fun _ _ => ⟨[_], _, [], rfl, by decide, by simp⟩

end Binary

end Atari
