import Atari.Proofs.Antic.Lines
import Mathlib.Data.List.Basic

/-!
# What a scan line reads

Apart from the registers of the video chips, a scan line reads the instruction that it decodes, the bytes of
screen memory that it shows, and for each of them the row of a glyph. If none of these lies in the registers
that the coprocessor writes, the pixels do not depend on these registers.

* `Playfield.fetches`: the bytes that the pixels of a mode line are made of; `Antic.fetches`: all that a scan
  line reads;
* **`Playfield.line_congr`**: the pixels of a mode line depend on these bytes and on the registers that the
  coprocessor only reads;
* `Antic.moments`: the coprocessor before each scan line of a frame.
-/

namespace Atari

namespace Playfield

open Antic

/-! ## Glyphs and lines -/

section Fetches

variable (m : Memory)

/-- The address of a row of a glyph. -/
def glyphAddress (code : Byte) (row : Nat) : Address :=
  let row := if Video.reflectedCharacters m then 7 - row % 8 else row % 8
  Video.chbase m + (code.toUInt16 * 8 + UInt16.ofNat row)

/-- The row of a glyph that a byte of screen memory is shown with, if it is a character. -/
def glyphFetches (mode : Mode) (row : Nat) (v : Byte) : List Address :=
  match mode.kind with
  | .hiResText => (glyphRow? mode (v &&& 0x7F) row).toList.map (glyphAddress m (v &&& 0x7F))
  | .multiColorText => [glyphAddress m (v &&& 0x7F) (row * 8 / mode.height)]
  | .wideText => [glyphAddress m (v &&& 0x3F) (row * 8 / mode.height)]
  | .map1 | .map2 | .hiResMap => []

/-- The bytes of screen memory that a line shows, each with the row of its glyph. -/
def fetches (mode : Mode) (scrolls : Bool) (memoryScan : Address) (row : Nat) : List Address :=
  if Video.width m = .disabled then []
  else (addresses m mode scrolls memoryScan).flatMap fun a =>
    a :: glyphFetches m mode row (m.peek a)

end Fetches

variable {m k : Memory} (h : Agree m k)

include h

theorem width_congr : Video.width k = Video.width m := by
  unfold Video.width
  rw [h Control.dmactl (by decide)]

theorem colbk_congr : Video.colbk k = Video.colbk m := h Control.colbk (by decide)

theorem colpf_congr (playfield : Nat) : Video.colpf k playfield = Video.colpf m playfield := by
  have apart : ∀ i < 4, Control.colpf0 + UInt16.ofNat i ∉ registers := by decide
  exact h _ (apart _ (Nat.mod_lt _ (by decide)))

theorem chactl_congr : Video.blankCharacters k = Video.blankCharacters m ∧
    Video.inverseCharacters k = Video.inverseCharacters m ∧
    Video.reflectedCharacters k = Video.reflectedCharacters m := by
  unfold Video.blankCharacters Video.inverseCharacters Video.reflectedCharacters
  rw [h Control.chactl (by decide)]
  exact ⟨rfl, rfl, rfl⟩

theorem shown_congr (mode : Mode) : shown k mode = shown m mode := by
  unfold shown
  rw [width_congr h]

theorem fetched_congr (mode : Mode) (scrolls : Bool) : fetched k mode scrolls = fetched m mode scrolls := by
  unfold fetched
  rw [width_congr h]

theorem addresses_congr (mode : Mode) (scrolls : Bool) (memoryScan : Address) :
    addresses k mode scrolls memoryScan = addresses m mode scrolls memoryScan := by
  have hscrol : Video.hscrol k = Video.hscrol m := by
    unfold Video.hscrol
    rw [h Control.hscrol (by decide)]
  unfold addresses offset
  rw [shown_congr h, fetched_congr h, hscrol]

/-! ## Pixels -/

theorem glyph_congr {code : Byte} {row : Nat} (clear : glyphAddress m code row ∉ registers) :
    glyph k code row = glyph m code row := by
  have chbase : Video.chbase k = Video.chbase m := by
    unfold Video.chbase
    rw [h Control.chbase (by decide)]
  have address : glyph k code row = k.peek (glyphAddress m code row) := by
    unfold glyph glyphAddress
    rw [(chactl_congr h).2.2, chbase]
  exact address.trans (h _ clear)

theorem hiResGlyph_congr {mode : Mode} {v : Byte} {row : Nat}
    (clear : ∀ r, glyphRow? mode (v &&& 0x7F) row = some r →
      glyphAddress m (v &&& 0x7F) r ∉ registers) : hiResGlyph k mode v row = hiResGlyph m mode v row := by
  obtain ⟨blank, inverse, -⟩ := chactl_congr h
  unfold hiResGlyph
  rw [blank, inverse]
  dsimp only
  cases shows : glyphRow? mode (v &&& 0x7F) row with
  | none => rfl
  | some r =>
    dsimp only
    rw [glyph_congr h (clear r shows)]

theorem hiResColors_congr : hiResColors k = hiResColors m := by
  unfold hiResColors
  rw [colpf_congr h, colpf_congr h]

theorem fourColors_congr : fourColors k = fourColors m := by
  funext n
  cases n with
  | zero => exact colbk_congr h
  | succ n => exact colpf_congr h n

theorem unit_congr {mode : Mode} {row : Nat} {v : Byte}
    (clear : ∀ a ∈ glyphFetches m mode row v, a ∉ registers) : unit k mode row v = unit m mode row v := by
  unfold glyphFetches at clear
  unfold unit
  rw [hiResColors_congr h, fourColors_congr h, colbk_congr h]
  simp only [colpf_congr h]
  cases hk : mode.kind <;> rw [hk] at clear <;> dsimp only at clear ⊢
  case hiResText =>
    rw [hiResGlyph_congr h fun r shows => clear _ ?_]
    simp [shows]
  case multiColorText | wideText => rw [glyph_congr h (clear _ (.head _))]

/-- **The pixels of a mode line depend on the bytes that it fetches**, and on the registers that the
coprocessor only reads. -/
theorem line_congr {mode : Mode} {scrolls : Bool} {memoryScan : Address} {row : Nat}
    (clear : ∀ a ∈ fetches m mode scrolls memoryScan row, a ∉ registers) :
    line k mode scrolls memoryScan row = line m mode scrolls memoryScan row := by
  have border : border k mode = border m mode := by
    unfold border
    rw [shown_congr h]
  unfold fetches at clear
  unfold line
  rw [width_congr h, border, colbk_congr h, addresses_congr h]
  by_cases disabled : Video.width m = .disabled
  · rw [if_pos disabled, if_pos disabled]
  · rw [if_neg disabled] at clear
    have units : ∀ a ∈ addresses m mode scrolls memoryScan,
        unit k mode row (k.peek a) = unit m mode row (m.peek a) := by
      intro a shown
      have fetched (c : Address) (hc : c ∈ a :: glyphFetches m mode row (m.peek a)) : c ∉ registers :=
        clear c (List.mem_flatMap.mpr ⟨a, shown, hc⟩)
      rw [h a (fetched a (.head _))]
      exact unit_congr h fun c hc => fetched c (.tail _ hc)
    rw [if_neg disabled, if_neg disabled, List.flatMap_congr units]

theorem emptyLine_congr : emptyLine k = emptyLine m := by
  unfold emptyLine
  rw [width_congr h, colbk_congr h]

end Playfield

/-! ## Scan lines and frames -/

/-- The bytes of the instruction at an address. -/
def DisplayInstruction.fetches (m : Memory) (a : Address) : List Address :=
  (List.range (decode m a).length).map fun j => a + UInt16.ofNat j

namespace Antic

/-- The bytes that the pixels of the instruction under way are made of. -/
def lineFetches (antic : Antic) (m : Memory) : List Address :=
  match antic.current with
  | some (.modeLine mode _ _ scrolls _) =>
    Playfield.fetches m mode scrolls antic.memoryScan antic.row
  | some (.jump _ _ _) | some (.blank _ _) | none => []

/-- The instruction that the next scan line of a display list decodes, if it decodes one. -/
def decoded? (antic : Antic) (m : Memory) : Option DisplayInstruction :=
  if antic.remaining = 0 then some (.decode m (Video.displayList m)) else none

/-- The bytes that the next scan line of a display list reads, besides the registers of the video chips. -/
def fetches (store : Store) (antic : Antic) (b : Board) : List Address :=
  (if antic.remaining = 0 then
      DisplayInstruction.fetches b.memory (Video.displayList b.memory) else []) ++
    (antic.drawing store b).1.lineFetches (antic.drawing store b).2.memory

/-- The coprocessor and the board before each scan line up to the vertical sync, at most `n` of them. -/
def moments (store : Store) : (n : Nat) → Antic → Board → List (Antic × Board)
  | 0, _, _ => []
  | n + 1, antic, b =>
    let (line, antic', b') := antic.scanLine store b
    (antic, b) :: if line = .verticalSync then [] else moments store n antic' b'

theorem hooks_of_mem_moments {n : Nat} {antic : Antic} {b : Board} {x : Antic × Board}
    (h : x ∈ moments Board.setByte n antic b) : x.2.hooks = b.hooks := by
  induction n generalizing antic b with
  | zero => cases h
  | succ n ih =>
    rw [moments] at h
    dsimp only at h
    split at h
    · obtain rfl := List.mem_singleton.mp h
      rfl
    · obtain rfl | h := List.mem_cons.mp h
      · rfl
      · exact (ih h).trans (leaves_scanLine antic b).hooks

/-! ### Plain stores -/

section Plain

variable {store : Store} {hooks : Hooks Hook} (hp : Plain store hooks) {b : Board} (hb : b.hooks = hooks)
  (antic : Antic)

include hp hb

theorem fetches_plain : antic.fetches store b = antic.fetches Board.setByte b := by
  unfold fetches drawing
  rw [step_plain hp hb]

theorem moments_plain (n : Nat) : moments store n antic b = moments Board.setByte n antic b := by
  induction n generalizing antic b with
  | zero => rfl
  | succ n ih =>
    have drawn : (antic.scanLine Board.setByte b).2.2.hooks = hooks := by
      rw [(leaves_scanLine antic b).hooks, hb]
    rw [moments, moments, scanLine_plain hp hb]
    dsimp only
    rw [ih drawn]

end Plain

end Antic

end Atari
