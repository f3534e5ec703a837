import Atari.Proofs.Antic.Region
import Mathlib.Data.List.Nodup

/-!
# Screen memory

A mode line fetches consecutive bytes of screen memory and shows some of them on each of its scan lines. With
horizontal scrolling it fetches more than it shows, and the scroll tells which. Behind its last scan line screen
memory goes on where the fetched bytes end.

* `Playfield.window`: consecutive addresses; `Playfield.addresses_eq`: those that a line shows are some of those that
  it fetches; `Playfield.offset_anti`: which ones;
* `Antic.Beat.underWay`: the coprocessor behind the decoding of a beat; `Antic.Beat.memoryScan_after`: where screen
  memory goes on behind a beat;
* `Antic.Series`: scan lines in a row; `Antic.Spans`: a mode line that is under way or has ended;
  **`Antic.Series.spans`**: what its scan lines make of it;
* **`Display.Reachable.lines_adjoin`**: what mode lines show, and how they follow each other in screen memory.
-/

namespace Atari

/-! ## Windows -/

/-- The bytes that a mode line fetches on a playfield, which is the next wider one with horizontal scrolling. -/
def PlayfieldWidth.fetched (w : PlayfieldWidth) (mode : Mode) (scrolls : Bool) : Nat :=
  (if scrolls then w.scrolled else w).bytes mode.bytes

theorem Mode.fetched_le {mode : Mode} (h : mode ∈ table) (w : PlayfieldWidth) (scrolls : Bool) :
    w.fetched mode scrolls ≤ 48 := by
  have all : ∀ mode ∈ table, ∀ scrolls, ∀ w ∈ [PlayfieldWidth.disabled, .narrow, .normal, .wide],
      w.fetched mode scrolls ≤ 48 := by decide
  exact all mode h scrolls w (by cases w <;> simp)

namespace Playfield

/-- Consecutive addresses, which go on at zero behind the last one. -/
def window (a : Address) (n : Nat) : List Address := (List.range n).map fun i => a + UInt16.ofNat i

variable (a : Address)

theorem length_window (n : Nat) : (window a n).length = n := by rw [window, List.length_map, List.length_range]

theorem window_append (n k : Nat) : window a n ++ window (a + UInt16.ofNat n) k = window a (n + k) := by
  rw [window, window, window, List.range_add, List.map_append, List.map_map]
  refine congrArg _ (List.map_congr_left fun i _ => ?_)
  rw [UInt16.add_assoc, ← UInt16.ofNat_add]
  rfl

theorem nodup_window {n : Nat} (small : n ≤ 65536) : (window a n).Nodup := by
  refine List.Nodup.map_on (fun i hi j hj same => ?_) List.nodup_range
  rw [List.mem_range] at hi hj
  have numbers := congrArg UInt16.toNat (UInt16.add_right_inj a |>.mp same)
  rwa [UInt16.toNat_ofNat_of_lt' (Nat.lt_of_lt_of_le hi small),
    UInt16.toNat_ofNat_of_lt' (Nat.lt_of_lt_of_le hj small)] at numbers

variable (m : Memory) {k : Memory} {mode : Mode} (scrolls : Bool)

theorem offset_add_shown_le (h : mode ∈ Mode.table) :
    offset m mode scrolls + shown m mode ≤ fetched m mode scrolls := by
  have fits := shown_le_fetched m h scrolls
  have below (n : Nat) : fetched m mode scrolls - shown m mode - n + shown m mode ≤ fetched m mode scrolls := by
    omega
  unfold offset
  dsimp only
  split
  · exact below _
  · rwa [Nat.zero_add]

theorem addresses_eq (h : mode ∈ Mode.table) : addresses m mode scrolls a =
    ((window a (fetched m mode scrolls)).drop (offset m mode scrolls)).take (shown m mode) := by
  have inside := offset_add_shown_le m scrolls h
  have shownOnes : addresses m mode scrolls a =
      window (a + UInt16.ofNat (offset m mode scrolls)) (shown m mode) := by
    refine List.map_congr_left fun i _ => ?_
    rw [UInt16.add_assoc, ← UInt16.ofNat_add]
  obtain ⟨rest, whole⟩ := Nat.exists_eq_add_of_le inside
  rw [whole, ← window_append, ← window_append, List.append_assoc, List.drop_left' (length_window ..),
    List.take_left' (length_window ..), shownOnes]

variable {m} in
theorem offset_anti (mode : Mode) (width : Video.width k = Video.width m)
    (more : Video.hscrol m ≤ Video.hscrol k) : offset k mode scrolls ≤ offset m mode scrolls := by
  have scroll : (Video.hscrol m).toNat * 2 / mode.pixelsPerByte ≤ (Video.hscrol k).toNat * 2 / mode.pixelsPerByte :=
    Nat.div_le_div_right (Nat.mul_le_mul_right 2 (UInt8.le_iff_toNat_le.mp more))
  unfold offset fetched shown
  dsimp only
  rw [width]
  split
  · omega
  · exact Nat.le_refl 0

end Playfield

/-! ## Where screen memory goes on -/

namespace DisplayInstruction

/-- Where an instruction says that screen memory goes on. -/
def scan? : DisplayInstruction → Option Address
  | modeLine _ scan _ _ _ => scan
  | blank _ _ | jump _ _ _ => none

theorem isModeLine_of_endsFrame {i : DisplayInstruction} (ends : i.endsFrame = true) : i.isModeLine = false := by
  cases i with
  | modeLine => cases ends
  | blank | jump => rfl

theorem scan?_of_not_isModeLine {i : DisplayInstruction} (other : i.isModeLine = false) : i.scan? = none := by
  cases i with
  | modeLine => cases other
  | blank | jump => rfl

end DisplayInstruction

namespace Antic

section Parts

variable (store : Store) (antic : Antic) (b : Board)

theorem memoryScan_verticalSync : (antic.verticalSync store b).1.memoryScan = antic.memoryScan := by
  obtain ⟨request, ended⟩ := verticalSync_eq store antic b
  rw [ended]

theorem memoryScan_step : (antic.step store b).2.1.memoryScan =
    (antic.step store b).1.scan?.getD antic.memoryScan := by
  rw [step_fst]
  unfold step
  dsimp only
  cases DisplayInstruction.decode b.memory (Video.displayList b.memory) with
  | blank lines interrupt => rfl
  | jump target verticalBlank interrupt =>
    cases verticalBlank with
    | false => rfl
    | true => exact memoryScan_verticalSync ..
  | modeLine mode scan vertical scrolls interrupt => cases scan <;> rfl

theorem memoryScan_freeLine : (antic.freeLine store b).2.1.memoryScan = antic.memoryScan := by
  unfold freeLine
  split
  · exact memoryScan_verticalSync ..
  · rfl

/-- Screen memory goes on with the last scan line of an instruction, when the scan line was counted. -/
theorem memoryScan_endLine_count : (antic.endLine store b).1.memoryScan =
    if antic.remaining - 1 = 0 then (antic.advance (antic.count store b).2.memory).memoryScan
    else antic.memoryScan := by
  have advanced (line remaining row : Nat) :
      (advance { antic with line := line, remaining := remaining, row := row }
        (antic.count store b).2.memory).memoryScan = (antic.advance (antic.count store b).2.memory).memoryScan := by
    unfold advance
    cases antic.current with
    | none => rfl
    | some i => cases i <;> rfl
  unfold endLine
  dsimp only [count]
  by_cases last : antic.remaining - 1 = 0
  · rw [if_pos last, if_neg (by omega)]
    split <;> exact advanced ..
  · rw [if_neg last, if_pos (by omega)]

end Parts

/-! ## Beats -/

namespace Beat

/-- The coprocessor with the instruction that a beat goes on with, or that it decodes. -/
def underWay : Beat → Antic
  | line store antic b =>
    if (line store antic b).decodes then (antic.step store b).2.1 else antic
  | step store antic b => (antic.step store b).2.1

/-- The memory at the end of a scan line of a display list, when the scan line was counted. -/
def ending : Beat → Memory
  | line store antic b | step store antic b =>
    ((antic.drawing store b).1.count store (antic.drawing store b).2).2.memory

/-- The widths of the playfield that a scan line of a display list reads: when it is drawn, and when it ends. -/
def widths (t : Beat) : List PlayfieldWidth :=
  if t.lists then [Video.width t.drawing.2.memory, Video.width t.ending] else []

variable {t : Beat}

theorem underWay_of_decodes (h : t.decodes = true) :
    t.underWay.current = some t.atCursor ∧ t.underWay.memoryScan = t.atCursor.scan?.getD t.before.memoryScan := by
  cases t with
  | step store antic b =>
    refine ⟨(current_step ..).trans (congrArg some (step_fst ..)), (memoryScan_step ..).trans ?_⟩
    rw [step_fst]
    rfl
  | line store antic b =>
    rw [underWay, if_pos h]
    refine ⟨(current_step ..).trans (congrArg some (step_fst ..)), (memoryScan_step ..).trans ?_⟩
    rw [step_fst]
    rfl

theorem underWay_of_not_decodes (h : t.decodes = false) : t.underWay = t.before := by
  cases t with
  | step store antic b => cases h
  | line store antic b => rw [underWay, if_neg (Bool.eq_false_iff.mp h), before]

theorem drawing_eq_underWay (lists : t.lists = true) : t.drawing.1 = t.underWay := by
  cases t with
  | step => cases lists
  | line store antic b =>
    have dma : Video.displayListDma b.memory = true := lists
    show (antic.drawing store b).1 = _
    rw [Antic.drawing, underWay]
    by_cases idle : antic.remaining = 0
    · have decodes : (line store antic b).decodes = true := by simp [decodes, dma, idle]
      rw [if_pos idle, if_pos decodes]
    · have goesOn : ¬(line store antic b).decodes = true := by simp [decodes, idle]
      rw [if_neg idle, if_neg goesOn]

/-- **What a beat leaves of the instruction under way.** -/
theorem after_underWay (t : Beat) : t.after.current = t.underWay.current ∧
    t.after.remaining = t.underWay.remaining - (if t.lists then 1 else 0) ∧
    t.after.memoryScan = if t.lists = true ∧ t.after.remaining = 0 then (t.underWay.advance t.ending).memoryScan
      else t.underWay.memoryScan := by
  cases t with
  | step store antic b => exact ⟨rfl, rfl, rfl⟩
  | line store antic b =>
    by_cases dma : Video.displayListDma b.memory = true
    · have lists : (line store antic b).lists = true := dma
      have begun : (antic.drawing store b).1 = (line store antic b).underWay := drawing_eq_underWay lists
      by_cases syncs : antic.Syncs b.memory
      · have after : (line store antic b).after = (line store antic b).underWay := by
          show (antic.scanLine store b).2.1 = _
          rw [scanLine_of_dma_of_syncs store dma syncs, ← begun]
        have none : (line store antic b).after.remaining = 0 :=
          (remaining_of_syncs (t := line store antic b) syncs).trans (if_pos dma)
        -- A jump ends the frame, and does not move screen memory.
        have waits : (line store antic b).underWay.current.any (·.isModeLine) = false := by
          have ends : antic.remaining = 0 ∧ (line store antic b).atCursor.endsFrame = true := by
            unfold Antic.Syncs at syncs
            rwa [if_pos dma] at syncs
          rw [(underWay_of_decodes ((decodes_iff lists).mpr ends.1)).1]
          exact DisplayInstruction.isModeLine_of_endsFrame ends.2
        rw [advance_of_waits waits, ite_self, ← after, none]
        exact ⟨rfl, (Nat.zero_sub _).symm, rfl⟩
      · have after : (line store antic b).after =
            ((antic.drawing store b).1.endLine store (antic.drawing store b).2).1 := by
          show (antic.scanLine store b).2.1 = _
          rw [scanLine_of_dma store dma syncs]
          rfl
        rw [after, current_endLine, remaining_endLine, memoryScan_endLine_count, begun, if_pos lists]
        refine ⟨rfl, rfl, if_congr (and_iff_right lists).symm ?_ rfl⟩
        rw [← begun]
        rfl
    · have dark : (line store antic b).lists = false := Bool.eq_false_iff.mpr dma
      have idle : (line store antic b).decodes = false := by simp [decodes, dma]
      have after : (line store antic b).after = (antic.freeLine store b).2.1 := by
        show (antic.scanLine store b).2.1 = _
        rw [scanLine, if_neg dma]
      obtain ⟨current, remaining, -⟩ := freeLine_underWay store antic b
      rw [underWay_of_not_decodes idle, after, dark]
      exact ⟨current, remaining, memoryScan_freeLine ..⟩

theorem mem_table_of_atCursor {mode : Mode} {scan : Option Address} {vertical scrolls interrupt : Bool}
    (h : t.atCursor = .modeLine mode scan vertical scrolls interrupt) : mode ∈ Mode.table := by
  cases t <;> exact DisplayInstruction.mem_table_of_decode h

theorem sound_underWay (h : t.before.Sound) : t.underWay.Sound := by
  cases t with
  | step store antic b => exact sound_step
  | line store antic b =>
    rw [underWay]
    split
    · exact sound_step
    · exact h

section ModeLine

variable {mode : Mode} {scan : Option Address} {vertical scrolls interrupt : Bool} {w : PlayfieldWidth}

/-- What a scan line of a mode line shows. -/
theorem shown_modeLine (lists : t.lists = true)
    (current : t.underWay.current = some (.modeLine mode scan vertical scrolls interrupt))
    (table : mode ∈ Mode.table) (width : ∀ x ∈ t.widths, x = w) (enabled : w ≠ .disabled) :
    let m := t.drawing.2.memory
    let side := List.replicate (Playfield.border m mode) (Video.colbk m)
    let places := (Playfield.window t.underWay.memoryScan (w.fetched mode scrolls)).drop
      (Playfield.offset m mode scrolls)
    Playfield.offset m mode scrolls + w.bytes mode.bytes ≤ w.fetched mode scrolls ∧
      t.shown = some (.picture (side ++ (places.take (w.bytes mode.bytes)).flatMap
        (fun a => Playfield.unit m mode t.underWay.row (m.peek a)) ++ side)) := by
  intro m side places
  have same : Video.width m = w := width _ (by rw [widths, if_pos lists]; exact .head _)
  have stays : t.decodes = true → t.atCursor.endsFrame = false := by
    intro decodes
    rw [(underWay_of_decodes decodes).1] at current
    rw [Option.some.inj current]
    rfl
  have fetched : Playfield.fetched m mode scrolls = w.fetched mode scrolls := by rw [← same]; rfl
  have shown : Playfield.shown m mode = w.bytes mode.bytes := by rw [← same]; rfl
  refine ⟨fetched ▸ shown ▸ Playfield.offset_add_shown_le m scrolls table, ?_⟩
  rw [shown_eq lists stays, pixels, drawing_eq_underWay lists, Antic.pixels, current]
  dsimp only
  rw [Playfield.line, if_neg (same ▸ enabled), Playfield.addresses_eq _ m scrolls table, fetched, shown]

end ModeLine

end Beat

/-! ## Mode lines -/

/-- Beats that come one after the other. Between them an interrupt may be taken, and nothing else is done to the
coprocessor. -/
def Series (first : Antic) : List Beat → (last : Antic) → Prop
  | [], last => ∃ request, last = { first with request }
  | t :: beats, last => (∃ request, t.before = { first with request }) ∧ Series t.after beats last

/-- A mode line that fetches `n` bytes from `s` on is under way or has ended. -/
structure Spans (antic : Antic) (i : DisplayInstruction) (s : Address) (n : Nat) : Prop where
  current : antic.current = some i
  scan : antic.memoryScan = if antic.remaining = 0 then s + UInt16.ofNat n else s

section Runs

variable {first last : Antic} {vs : List Beat} {t : Beat} {mode : Mode} {scan : Option Address}
  {vertical scrolls interrupt : Bool} {w : PlayfieldWidth} {s : Address}

/-- A scan line of a mode line moves on in screen memory if it is the last one. -/
theorem Beat.spans (current : t.underWay.current = some (.modeLine mode scan vertical scrolls interrupt))
    (more : t.underWay.remaining ≠ 0) (width : ∀ x ∈ t.widths, x = w) :
    t.after.Spans (.modeLine mode scan vertical scrolls interrupt) t.underWay.memoryScan
      (w.fetched mode scrolls) := by
  obtain ⟨same, remaining, moved⟩ := t.after_underWay
  refine ⟨same.trans current, ?_⟩
  rw [moved]
  by_cases lists : t.lists = true
  · have ended : Video.width t.ending = w := width _ (by simp [widths, lists])
    refine if_congr (and_iff_right lists) ?_ rfl
    rw [advance, current, ← ended]
    rfl
  · rw [if_neg fun h => lists h.1, remaining, if_neg lists, Nat.sub_zero, if_neg more]

theorem Beat.spans_of_not_decodes (goesOn : t.decodes = false)
    (spans : t.before.Spans (.modeLine mode scan vertical scrolls interrupt) s (w.fetched mode scrolls))
    (width : ∀ x ∈ t.widths, x = w) :
    t.after.Spans (.modeLine mode scan vertical scrolls interrupt) s (w.fetched mode scrolls) ∧
      (t.lists = true → t.underWay.current = some (.modeLine mode scan vertical scrolls interrupt) ∧
        t.underWay.memoryScan = s) := by
  have underWay : t.underWay = t.before := underWay_of_not_decodes goesOn
  have current : t.underWay.current = some (.modeLine mode scan vertical scrolls interrupt) := by
    rw [underWay, spans.current]
  by_cases lists : t.lists = true
  · have more : t.before.remaining ≠ 0 := fun none =>
      Bool.eq_false_iff.mp goesOn ((decodes_iff lists).mpr none)
    have place : t.underWay.memoryScan = s := by rw [underWay, spans.scan, if_neg more]
    exact ⟨place ▸ Beat.spans current (underWay ▸ more) width, fun _ => ⟨current, place⟩⟩
  · obtain ⟨kept, remaining, moved⟩ := t.after_underWay
    rw [if_neg lists, Nat.sub_zero, underWay] at remaining
    rw [if_neg fun h => lists h.1, underWay] at moved
    exact ⟨⟨kept.trans current, by rw [moved, remaining, spans.scan]⟩, fun h => absurd h lists⟩

/-- **The scan lines of a mode line** find screen memory at the same place, and the last one moves it on by the
bytes that the line fetches. -/
theorem Series.spans (run : Series first vs last)
    (spans : first.Spans (.modeLine mode scan vertical scrolls interrupt) s (w.fetched mode scrolls))
    (idle : ∀ v ∈ vs, v.decodes = false) (width : ∀ v ∈ vs, ∀ x ∈ v.widths, x = w) :
    last.Spans (.modeLine mode scan vertical scrolls interrupt) s (w.fetched mode scrolls) ∧
      last.remaining = first.remaining - vs.countP (·.lists) ∧
      ∀ v ∈ vs, v.lists = true →
        v.underWay.current = some (.modeLine mode scan vertical scrolls interrupt) ∧
        v.underWay.memoryScan = s := by
  induction vs generalizing first with
  | nil =>
    obtain ⟨request, rfl⟩ := run
    exact ⟨⟨spans.current, spans.scan⟩, rfl, fun _ mem => nomatch mem⟩
  | cons v vs ih =>
    obtain ⟨⟨request, gap⟩, run⟩ := run
    obtain ⟨goesOn, idle⟩ := List.forall_mem_cons.mp idle
    obtain ⟨same, width⟩ := List.forall_mem_cons.mp width
    have before : v.before.Spans (.modeLine mode scan vertical scrolls interrupt) s (w.fetched mode scrolls) :=
      gap ▸ ⟨spans.current, spans.scan⟩
    obtain ⟨after, line⟩ := Beat.spans_of_not_decodes goesOn before same
    obtain ⟨ends, left, lines⟩ := ih run after idle width
    refine ⟨ends, ?_, List.forall_mem_cons.mpr ⟨line, lines⟩⟩
    rw [left, v.after_underWay.2.1, Beat.underWay_of_not_decodes goesOn, gap, List.countP_cons, Nat.sub_sub,
      Nat.add_comm]

/-- No mode line has scan lines left. -/
def Waits (antic : Antic) : Prop := antic.remaining = 0 ∨ antic.current.any (·.isModeLine) = false

/-- A beat that decodes no mode line leaves screen memory where it is. -/
theorem Beat.memoryScan_of_waits (waits : t.before.Waits)
    (other : t.decodes = true → t.atCursor.isModeLine = false) :
    t.after.memoryScan = t.before.memoryScan ∧ t.after.Waits := by
  obtain ⟨kept, remaining, moved⟩ := t.after_underWay
  -- Either nothing happens to the instruction under way, or it is another one.
  have still : (t.lists = false ∧ t.underWay = t.before) ∨ t.underWay.current.any (·.isModeLine) = false ∧
      t.underWay.memoryScan = t.before.memoryScan := by
    by_cases decodes : t.decodes = true
    · obtain ⟨current, scan⟩ := underWay_of_decodes decodes
      rw [current, scan, DisplayInstruction.scan?_of_not_isModeLine (other decodes)]
      exact .inr ⟨other decodes, rfl⟩
    · rw [underWay_of_not_decodes (Bool.eq_false_iff.mpr decodes)]
      by_cases lists : t.lists = true
      · exact .inr ⟨waits.resolve_left fun none => decodes ((decodes_iff lists).mpr none), rfl⟩
      · exact .inl ⟨Bool.eq_false_iff.mpr lists, rfl⟩
  obtain ⟨dark, same⟩ | ⟨another, scan⟩ := still
  · rw [dark, same, if_neg Bool.false_ne_true, Nat.sub_zero] at remaining
    rw [dark, same, if_neg fun h => Bool.false_ne_true h.1] at moved
    refine ⟨moved, ?_⟩
    rwa [Waits, kept, remaining, same]
  · rw [advance_of_waits another, ite_self] at moved
    exact ⟨moved.trans scan, .inr (by rw [kept, another])⟩

/-- **Without a mode line**, screen memory stays where it is. -/
theorem Series.memoryScan_eq (run : Series first vs last) (waits : first.Waits)
    (other : ∀ v ∈ vs, v.decodes = true → v.atCursor.isModeLine = false) :
    last.memoryScan = first.memoryScan := by
  induction vs generalizing first with
  | nil =>
    obtain ⟨request, rfl⟩ := run
    rfl
  | cons v vs ih =>
    obtain ⟨⟨request, gap⟩, run⟩ := run
    obtain ⟨here, other⟩ := List.forall_mem_cons.mp other
    have before : v.before.Waits := gap ▸ waits
    obtain ⟨moved, after⟩ := Beat.memoryScan_of_waits before here
    rw [ih run after other, moved, gap]

end Runs

end Antic

namespace Display

open Antic Playfield

/-- **Mode lines in screen memory.** Wherever operations have led, let a mode line be under way whose width of the
playfield is the same whenever it is read. The bytes that a scan line shows are consecutive ones of those that the
mode line fetches, and a larger horizontal scroll shows bytes nearer to the first. Behind its last scan line, screen
memory goes on where these bytes end. If the next mode line does not load the place, then it fetches the bytes that
follow: the two have none in common and leave none out. -/
theorem Reachable.lines_adjoin {d : Display} (reachable : d.Reachable) {t : Beat} {vs : List Beat} {last : Antic}
    (start : t.before = d.antic) (run : Series t.after vs last) {mode : Mode} {scan : Option Address}
    {vertical scrolls interrupt : Bool} {w : PlayfieldWidth}
    (line : t.underWay.current = some (.modeLine mode scan vertical scrolls interrupt))
    (more : t.underWay.remaining ≠ 0) (idle : ∀ v ∈ vs, v.decodes = false)
    (width : ∀ v ∈ t :: vs, ∀ x ∈ v.widths, x = w) (enabled : w ≠ .disabled) :
    let s := t.underWay.memoryScan
    let shown := w.bytes mode.bytes
    let fetched := w.fetched mode scrolls
    (t.decodes = true → s = scan.getD t.before.memoryScan) ∧
    (∀ v ∈ t :: vs, v.lists = true →
      let m := v.drawing.2.memory
      let offset := offset m mode scrolls
      let side := List.replicate (border m mode) (Video.colbk m)
      offset + shown ≤ fetched ∧
        v.shown = some (.picture (side ++ (((window s fetched).drop offset).take shown).flatMap
          (fun a => unit m mode v.underWay.row (m.peek a)) ++ side))) ∧
    (∀ m k : Memory, Video.width k = Video.width m → Video.hscrol m ≤ Video.hscrol k →
      offset k mode scrolls ≤ offset m mode scrolls) ∧
    last.remaining = t.underWay.remaining - (t :: vs).countP (·.lists) ∧
    last.memoryScan = (if last.remaining = 0 then s + UInt16.ofNat fetched else s) ∧
    (last.remaining = 0 → ∀ (xs : List Beat) (t' : Beat), Series last xs t'.before →
      (∀ x ∈ xs, x.decodes = true → x.atCursor.isModeLine = false) → t'.decodes = true →
      ∀ mode' vertical' scrolls' interrupt',
        t'.atCursor = .modeLine mode' none vertical' scrolls' interrupt' → ∀ w' : PlayfieldWidth,
        let s' := t'.underWay.memoryScan
        let fetched' := w'.fetched mode' scrolls'
        s' = s + UInt16.ofNat fetched ∧
          window s fetched ++ window s' fetched' = window s (fetched + fetched') ∧
          (window s (fetched + fetched')).Nodup) := by
  intro s shown fetched
  obtain ⟨first, width'⟩ := List.forall_mem_cons.mp width
  have table : mode ∈ Mode.table := (Beat.sound_underWay (start ▸ reachable.sound)).mode line
  obtain ⟨ends, left, lines⟩ := run.spans (Beat.spans line more first) idle width'
  have lines : ∀ v ∈ t :: vs, v.lists = true →
      v.underWay.current = some (.modeLine mode scan vertical scrolls interrupt) ∧ v.underWay.memoryScan = s :=
    List.forall_mem_cons.mpr ⟨fun _ => ⟨line, rfl⟩, lines⟩
  refine ⟨fun decodes => ?_, fun v mem lists => ?_, fun m k => offset_anti scrolls mode, ?_, ends.scan, ?_⟩
  · obtain ⟨current, loaded⟩ := Beat.underWay_of_decodes decodes
    rw [line] at current
    rw [← Option.some.inj current] at loaded
    exact loaded
  · obtain ⟨current, place⟩ := lines v mem lists
    rw [← place]
    exact Beat.shown_modeLine lists current table (width v mem) enabled
  · rw [left, t.after_underWay.2.1, List.countP_cons]
    omega
  · intro none xs t' between other decodes mode' vertical' scrolls' interrupt' line' w' s' fetched'
    obtain ⟨current, loaded⟩ := Beat.underWay_of_decodes decodes
    have place : s' = s + UInt16.ofNat fetched := by
      rw [line'] at loaded
      show t'.underWay.memoryScan = _
      rw [loaded]
      exact (between.memoryScan_eq (.inl none) other).trans (ends.scan.trans (if_pos none))
    refine ⟨place, ?_, nodup_window s ?_⟩
    · rw [place, window_append]
    · have := Mode.fetched_le table w scrolls
      have := Mode.fetched_le (Beat.mem_table_of_atCursor line') w' scrolls'
      omega

/-- A board with two mode lines of two scan lines each in its display list, the first at the end of memory. They
scroll by four color clocks. -/
def adjoining : Board where
  memory := ((((listed 0x5D).memory.set 0x0001 0xF0).set 0x0002 0xFF).set 0x0003 0x1D).set Control.hscrol 0x04

/-- A scan line of the first mode line shows forty of its bytes, from the eighth on. The second mode line goes on
at the start of memory. -/
theorem lines_adjoin_adjoining :
    let first := (({} : Antic).scanLine Board.store adjoining).2
    let second := (first.1.scanLine Board.store first.2).2
    let s := (Beat.line Board.store second.1 second.2).underWay.memoryScan
    (∃ side unit, (Beat.line Board.store first.1 first.2).shown =
      some (.picture (side ++ (((window 0xFFF0 48).drop 7).take 40).flatMap unit ++ side))) ∧
    s = 0x0020 ∧ window 0xFFF0 48 ++ window s 48 = window 0xFFF0 96 ∧ (window 0xFFF0 96).Nodup := by
  intro first second s
  let t : Beat := .line Board.store {} adjoining
  let v : Beat := .line Board.store first.1 first.2
  let t' : Beat := .line Board.store second.1 second.2
  have run : Series t.after [v] second.1 := ⟨⟨t.after.request, rfl⟩, v.after.request, rfl⟩
  have follows : Series second.1 [] t'.before := ⟨second.1.request, rfl⟩
  have place : t.underWay.memoryScan = 0xFFF0 := by decide +kernel
  have begins : Playfield.offset v.drawing.2.memory ⟨13, 2, 40, .map2⟩ true = 7 := by decide +kernel
  have line : t.underWay.current = some (.modeLine ⟨13, 2, 40, .map2⟩ (some 0xFFF0) false true false) := by
    decide +kernel
  have width : ∀ u ∈ [t, v], ∀ x ∈ u.widths, x = .normal := by decide +kernel
  obtain ⟨-, lines, -, -, -, next⟩ := (Reachable.on (.recorder {})).lines_adjoin rfl run line
    (by decide +kernel) (by decide +kernel) width (by decide)
  obtain ⟨-, shown⟩ := lines v (.tail _ (.head _)) (by decide +kernel)
  obtain ⟨goesOn, whole, alone⟩ := next (by decide +kernel) [] t' follows (by simp) (by decide +kernel)
    ⟨13, 2, 40, .map2⟩ false true false (by decide +kernel) .normal
  rw [place] at shown goesOn whole alone
  rw [begins] at shown
  exact ⟨⟨_, _, shown⟩, goesOn.trans (by decide), whole, alone⟩

end Display

end Atari
