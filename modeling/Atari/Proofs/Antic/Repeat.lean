import Atari.Proofs.Antic.Fetches
import Atari.Proofs.Antic.Frame

/-!
# Frames that repeat

A frame leaves a different coprocessor behind: another instruction, another place in screen memory, other
counts, and other bytes in the registers that it writes. If it ends where it began, the next frame looks the
same, since none of this is read before it is written.

* `Antic.Twins`: what two coprocessors have in common before corresponding scan lines; `Antic.Draws`: that
  they draw the same instruction;
* `Antic.Twins.step`, `Antic.Twins.endLine`: the parts of a scan line keep it; `Antic.Twins.pixels_eq`: it
  decides the pixels;
* `Antic.InStep.scanLine`, **`Antic.InStep.linesUpTo`**: so does a scan line, and so do several, and they look
  the same;
* `Antic.firstModeLine?`: the mode line that has to load the place in screen memory;
* **`Display.frame_repeats`**: a frame that ends where it began is drawn again.
-/

namespace Atari

namespace DisplayInstruction

/-- Whether an instruction is a mode line. -/
def isModeLine : DisplayInstruction → Bool
  | modeLine _ _ _ _ _ => true
  | blank _ _ | jump _ _ _ => false

/-- Whether an instruction says where screen memory goes on. -/
def loadsScan : DisplayInstruction → Bool
  | modeLine _ scan _ _ _ => scan.isSome
  | blank _ _ | jump _ _ _ => false

end DisplayInstruction

namespace Antic

/-! ## The end of a scan line -/

section EndLine

variable (antic : Antic) (b : Board)

/-- Screen memory goes on behind the last scan line of an instruction. -/
theorem memoryScan_endLine : (antic.endLine Board.setByte b).1.memoryScan =
    if antic.remaining - 1 > 0 then antic.memoryScan else (antic.advance b.memory).memoryScan := by
  have counted : Agree b.memory (antic.count Board.setByte b).2.memory :=
    (leaves_apply b (own_vcount _)).agree
  have advanced (line remaining row : Nat) :
      (advance { antic with line := line, remaining := remaining, row := row }
        (antic.count Board.setByte b).2.memory).memoryScan = (antic.advance b.memory).memoryScan := by
    unfold advance
    cases antic.current with
    | none => rfl
    | some i =>
      cases i with
      | modeLine mode scan vertical scrolls interrupt =>
        dsimp only
        rw [Playfield.fetched_congr counted]
      | _ => rfl
  unfold endLine
  dsimp only [count]
  split
  · rfl
  · split <;> exact advanced ..

end EndLine

/-! ## Twins -/

/-- What two coprocessors with their boards have in common. They go on in screen memory at the same place as
soon as it was loaded, and did not move before from where each of them was. -/
structure Twins (loaded : Bool) (start start' : Address) (x y : Antic × Board) : Prop where
  remaining : y.1.remaining = x.1.remaining
  region : y.1.scrollRegion = x.1.scrollRegion
  cursor : Video.displayList y.2.memory = Video.displayList x.2.memory
  agree : Agree x.2.memory y.2.memory
  scan : loaded = true → y.1.memoryScan = x.1.memoryScan
  fresh : loaded = false → x.1.memoryScan = start ∧ y.1.memoryScan = start'

/-- Two coprocessors draw the same row of the same instruction, which is no mode line before screen memory
was loaded. -/
structure Draws (loaded : Bool) (x y : Antic) : Prop where
  current : y.current = x.current
  row : y.row = x.row
  waits : loaded = false → x.current.any (·.isModeLine) = false

variable {loaded : Bool} {start start' : Address} {x y : Antic × Board}

theorem advance_of_waits {antic : Antic} (waits : antic.current.any (·.isModeLine) = false)
    (m : Memory) : antic.advance m = antic := by
  unfold advance
  cases hc : antic.current with
  | none => rfl
  | some i =>
    rw [hc] at waits
    cases i with
    | modeLine => cases waits
    | _ => rfl

namespace Twins

theorem verticalSync {antic antic' : Antic} {b b' : Board}
    (t : Twins loaded start start' (antic, b) (antic', b')) :
    Twins loaded start start' (antic.verticalSync Board.setByte b)
      (antic'.verticalSync Board.setByte b') := by
  obtain ⟨request, ended⟩ := verticalSync_eq Board.setByte antic b
  obtain ⟨request', ended'⟩ := verticalSync_eq Board.setByte antic' b'
  refine ⟨?_, ?_, ?_, ?_, fun known => ?_, fun fresh => ?_⟩
  · rw [remaining_verticalSync, remaining_verticalSync]
    exact t.remaining
  · rw [ended, ended']
  · rw [displayList_verticalSync, displayList_verticalSync]
    exact t.cursor
  · exact t.agree.leaves (leaves_verticalSync ..) (leaves_verticalSync ..)
  · rw [ended, ended']
    exact t.scan known
  · rw [ended, ended']
    exact t.fresh fresh

variable (t : Twins loaded start start' x y)

include t

theorem pixels_eq (d : Draws loaded x.1 y.1)
    (clear : ∀ a ∈ x.1.lineFetches x.2.memory, a ∉ registers) :
    y.1.pixels y.2.memory = x.1.pixels x.2.memory := by
  unfold lineFetches at clear
  unfold pixels
  rw [d.current]
  cases hc : x.1.current with
  | none => rfl
  | some i =>
    rw [hc] at clear
    cases i with
    | blank => rfl
    | jump => exact Playfield.emptyLine_congr t.agree
    | modeLine mode scan vertical scrolls interrupt =>
      have known : loaded = true := by
        by_contra unknown
        have waits := d.waits (Bool.eq_false_iff.mpr unknown)
        rw [hc] at waits
        cases waits
      dsimp only
      rw [t.scan known, d.row]
      exact Playfield.line_congr t.agree clear

/-- The end of a scan line keeps what they have in common. -/
theorem endLine (d : Draws loaded x.1 y.1) :
    Twins loaded start start' (x.1.endLine Board.setByte x.2) (y.1.endLine Board.setByte y.2) ∧
      Draws loaded (x.1.endLine Board.setByte x.2).1 (y.1.endLine Board.setByte y.2).1 := by
  have fetched : loaded = true →
      (y.1.advance y.2.memory).memoryScan = (x.1.advance x.2.memory).memoryScan := by
    intro known
    unfold advance
    rw [d.current]
    cases x.1.current with
    | none => exact t.scan known
    | some i =>
      cases i with
      | modeLine mode scan vertical scrolls interrupt =>
        dsimp only
        rw [t.scan known, Playfield.fetched_congr t.agree]
      | _ => exact t.scan known
  refine ⟨⟨?_, ?_, ?_, ?_, fun known => ?_, fun fresh => ?_⟩, ⟨?_, ?_, fun fresh => ?_⟩⟩
  · rw [remaining_endLine, remaining_endLine, t.remaining]
  · rw [scrollRegion_endLine, scrollRegion_endLine, t.region]
  · rw [displayList_endLine, displayList_endLine, t.cursor]
  · exact t.agree.leaves (leaves_endLine ..) (leaves_endLine ..)
  · rw [memoryScan_endLine, memoryScan_endLine, t.remaining, t.scan known, fetched known]
  · have waits := d.waits fresh
    have waits' : y.1.current.any (·.isModeLine) = false := by rwa [d.current]
    rw [memoryScan_endLine, memoryScan_endLine, advance_of_waits waits,
      advance_of_waits waits', ite_self, ite_self]
    exact t.fresh fresh
  · rw [current_endLine, current_endLine, d.current]
  · rw [row_endLine, row_endLine, d.row]
  · rw [current_endLine]
    exact d.waits fresh

theorem decode_eq
    (clear : ∀ a ∈ DisplayInstruction.fetches x.2.memory (Video.displayList x.2.memory), a ∉ registers) :
    DisplayInstruction.decode y.2.memory (Video.displayList y.2.memory) =
      .decode x.2.memory (Video.displayList x.2.memory) := by
  rw [t.cursor]
  refine DisplayInstruction.decode_congr fun j inside => t.agree _ (clear _ ?_)
  exact List.mem_map.mpr ⟨j, List.mem_range.mpr inside, rfl⟩

/-- Decoding an instruction keeps what they have in common, and they then draw it. -/
theorem step {i : DisplayInstruction}
    (decoded : .decode x.2.memory (Video.displayList x.2.memory) = i)
    (clear : ∀ a ∈ DisplayInstruction.fetches x.2.memory (Video.displayList x.2.memory), a ∉ registers)
    (load : loaded = false → i.isModeLine = true → i.loadsScan = true) :
    Twins (loaded || i.isModeLine) start start' (x.1.step Board.setByte x.2).2
        (y.1.step Board.setByte y.2).2 ∧
      (i.endsFrame = false → Draws (loaded || i.isModeLine) (x.1.step Board.setByte x.2).2.1
        (y.1.step Board.setByte y.2).2.1) := by
  -- Both boards behind the note and the new cursor.
  have stored (body body' : Unit → String) (a : Address) :
      Agree ((x.2.note .debug body).apply Board.setByte (.displayList a)).memory
        ((y.2.note .debug body').apply Board.setByte (.displayList a)).memory := by
    have leaves (b : Board) (body : Unit → String) :
        Leaves b ((b.note .debug body).apply Board.setByte (.displayList a)) :=
      (Leaves.note ..).trans (leaves_apply _ (own_displayList a))
    exact t.agree.leaves (leaves ..) (leaves ..)
  have moved (b c : Board) (a : Address) :
      Video.displayList (c.apply Board.setByte (.displayList a)).memory =
        Video.displayList (b.apply Board.setByte (.displayList a)).memory := by
    rw [displayList_apply_displayList, displayList_apply_displayList]
  unfold Antic.step
  dsimp only
  rw [t.decode_eq clear, t.cursor, decoded]
  cases i with
  | blank lines interrupt =>
    rw [DisplayInstruction.isModeLine, Bool.or_false]
    exact ⟨⟨rfl, rfl, moved .., stored _ _ _, t.scan, t.fresh⟩, fun _ => ⟨rfl, rfl, fun _ => rfl⟩⟩
  | jump target verticalBlank interrupt =>
    rw [DisplayInstruction.isModeLine, Bool.or_false]
    cases verticalBlank with
    | false =>
      exact ⟨⟨rfl, t.region, moved .., stored _ _ _, t.scan, t.fresh⟩,
        fun _ => ⟨rfl, rfl, fun _ => rfl⟩⟩
    | true =>
      dsimp only
      rw [if_pos rfl, if_pos rfl]
      refine ⟨verticalSync ?_, nofun⟩
      exact ⟨rfl, t.region, moved .., stored _ _ _, t.scan, t.fresh⟩
  | modeLine mode scan scrolls horizontal interrupt =>
    rw [DisplayInstruction.isModeLine, Bool.or_true]
    cases scan with
    | some a =>
      dsimp only
      rw [(stored _ _ _).vscrol, t.region]
      exact ⟨⟨rfl, rfl, moved .., stored _ _ _, fun _ => rfl, nofun⟩,
        fun _ => ⟨rfl, rfl, nofun⟩⟩
    | none =>
      -- The mode line goes on where screen memory is, so it was loaded.
      have known : loaded = true := by
        by_contra unknown
        cases load (Bool.eq_false_iff.mpr unknown) rfl
      dsimp only
      rw [(stored _ _ _).vscrol, t.region]
      exact ⟨⟨rfl, rfl, moved .., stored _ _ _, fun _ => t.scan known, nofun⟩,
        fun _ => ⟨rfl, rfl, nofun⟩⟩

end Twins

/-! ## Scan lines -/

/-- Twins that draw the same instruction as long as lines are left of it. -/
structure InStep (loaded : Bool) (start start' : Address) (x y : Antic × Board) : Prop extends
    Twins loaded start start' x y where
  draws : x.1.remaining ≠ 0 → Draws loaded x.1 y.1

/-- Whether screen memory is loaded behind the next scan line. -/
def loadsBehind (loaded : Bool) (x : Antic × Board) : Bool :=
  loaded || (x.1.decoded? x.2.memory).any (·.isModeLine)

theorem scanLine_of_dma_of_syncs (store : Store) {antic : Antic} {b : Board}
    (dma : Video.displayListDma b.memory = true) (h : antic.Syncs b.memory) :
    antic.scanLine store b = (.verticalSync, antic.drawing store b) := by
  unfold Syncs at h
  rw [if_pos dma, ← step_fst store antic b] at h
  unfold scanLine drawing
  rw [if_pos dma, if_pos h.1, if_pos h.1]
  dsimp only
  rw [if_pos h.2]

theorem endsFrame_of_not_syncs {antic : Antic} {m : Memory} (dma : Video.displayListDma m = true)
    (h : ¬antic.Syncs m) {i : DisplayInstruction} (decoded : antic.decoded? m = some i) :
    i.endsFrame = false := by
  unfold Syncs at h
  rw [if_pos dma] at h
  unfold decoded? at decoded
  split at decoded
  · rename_i none
    cases decoded
    exact Bool.eq_false_iff.mpr fun ends => h ⟨none, ends⟩
  · cases decoded

namespace InStep

variable (h : InStep loaded start start' x y)
  (clear : ∀ a ∈ x.1.fetches Board.setByte x.2, a ∉ registers)

include h clear

theorem syncs_iff (dma : Video.displayListDma x.2.memory = true) :
    y.1.Syncs y.2.memory ↔ x.1.Syncs x.2.memory := by
  unfold Syncs
  rw [h.agree.displayListDma, if_pos dma, if_pos dma, h.remaining]
  refine and_congr_right fun none => ?_
  rw [h.decode_eq fun a ha => clear a ?_]
  unfold fetches
  rw [if_pos none]
  exact List.mem_append_left _ ha

theorem drawing (load : loaded = false → ∀ i, x.1.decoded? x.2.memory = some i →
      i.isModeLine = true → i.loadsScan = true) :
    Twins (loadsBehind loaded x) start start' (x.1.drawing Board.setByte x.2)
        (y.1.drawing Board.setByte y.2) ∧
      ((∀ i, x.1.decoded? x.2.memory = some i → i.endsFrame = false) →
        Draws (loadsBehind loaded x) (x.1.drawing Board.setByte x.2).1
          (y.1.drawing Board.setByte y.2).1) := by
  unfold fetches at clear
  unfold loadsBehind decoded? at *
  unfold Antic.drawing
  rw [h.remaining]
  by_cases none : x.1.remaining = 0
  · rw [if_pos none] at clear
    simp only [if_pos none] at load ⊢
    obtain ⟨twins, draws⟩ := h.step rfl (fun a ha => clear a (List.mem_append_left _ ha))
      fun fresh => load fresh _ rfl
    exact ⟨twins, fun stays => draws (stays _ rfl)⟩
  · simp only [if_neg none, Option.any_none, Bool.or_false]
    exact ⟨h.toTwins, fun _ => h.draws none⟩

/-- **They draw the same scan line**, and stay in step. -/
theorem scanLine (dma : Video.displayListDma x.2.memory = true)
    (load : loaded = false → ∀ i, x.1.decoded? x.2.memory = some i →
      i.isModeLine = true → i.loadsScan = true) :
    (y.1.scanLine Board.setByte y.2).1 = (x.1.scanLine Board.setByte x.2).1 ∧
      InStep (loadsBehind loaded x) start start' (x.1.scanLine Board.setByte x.2).2
        (y.1.scanLine Board.setByte y.2).2 := by
  have dma' : Video.displayListDma y.2.memory = true := h.agree.displayListDma.trans dma
  have syncs_iff := h.syncs_iff clear dma
  obtain ⟨twins, draws⟩ := h.drawing clear load
  by_cases syncs : x.1.Syncs x.2.memory
  · rw [scanLine_of_dma_of_syncs _ dma syncs, scanLine_of_dma_of_syncs _ dma' (syncs_iff.mpr syncs)]
    refine ⟨rfl, { twins with draws := fun more => absurd ?_ more }⟩
    unfold Syncs at syncs
    rw [if_pos dma, ← step_fst Board.setByte x.1 x.2] at syncs
    rw [Antic.drawing, if_pos syncs.1]
    exact remaining_step _ _ _ syncs.2
  · have draws := draws fun i decoded => endsFrame_of_not_syncs dma syncs decoded
    rw [scanLine_of_dma _ dma syncs, scanLine_of_dma _ dma' (syncs_iff.not.mpr syncs)]
    obtain ⟨ended, under⟩ := twins.endLine draws
    have pixels := twins.pixels_eq draws fun a ha => clear a (List.mem_append_right _ ha)
    exact ⟨congrArg ScanLine.picture pixels, { ended with draws := fun _ => under }⟩

end InStep

/-! ## Several scan lines -/

/-- The first mode line that is decoded before the vertical sync, within `n` scan lines. -/
def firstModeLine? (store : Store) (n : Nat) (antic : Antic) (b : Board) : Option DisplayInstruction :=
  ((moments store n antic b).filterMap fun x => x.1.decoded? x.2.memory).find? (·.isModeLine)

section FirstModeLine

variable {store : Store} {n : Nat} {antic : Antic} {b : Board}

theorem firstModeLine?_of_decoded {i : DisplayInstruction} (decoded : antic.decoded? b.memory = some i)
    (mode : i.isModeLine = true) : firstModeLine? store (n + 1) antic b = some i := by
  rw [firstModeLine?, moments]
  simp [decoded, mode]

theorem firstModeLine?_of_other (other : (antic.decoded? b.memory).any (·.isModeLine) = false)
    (more : (antic.scanLine store b).1 ≠ .verticalSync) : firstModeLine? store (n + 1) antic b =
      firstModeLine? store n (antic.scanLine store b).2.1 (antic.scanLine store b).2.2 := by
  rw [firstModeLine?, firstModeLine?, moments]
  dsimp only
  rw [if_neg more]
  cases decoded : antic.decoded? b.memory with
  | none => simp [decoded]
  | some i =>
    rw [decoded] at other
    have mode : i.isModeLine = false := other
    simp [decoded, mode]

end FirstModeLine

/-- **They draw the same scan lines up to the vertical sync**, and stay in step. -/
theorem InStep.linesUpTo (h : InStep loaded start start' x y)
    (dma : Video.displayListDma x.2.memory = true) (n : Nat)
    (clear : ∀ z ∈ moments Board.setByte n x.1 x.2, ∀ a ∈ z.1.fetches Board.setByte z.2, a ∉ registers)
    (load : loaded = false → ∀ i, firstModeLine? Board.setByte n x.1 x.2 = some i →
      i.loadsScan = true) :
    (y.1.linesUpTo Board.setByte n y.2).1 = (x.1.linesUpTo Board.setByte n x.2).1 ∧
      ∃ loaded', InStep loaded' start start' (x.1.linesUpTo Board.setByte n x.2).2
        (y.1.linesUpTo Board.setByte n y.2).2 := by
  induction n generalizing loaded x y with
  | zero => exact ⟨rfl, loaded, h⟩
  | succ n ih =>
    rw [moments] at clear
    dsimp only at clear
    have now := clear _ (.head _)
    obtain ⟨line, next⟩ := h.scanLine now dma fun fresh i decoded mode =>
      load fresh i (firstModeLine?_of_decoded decoded mode)
    unfold Antic.linesUpTo
    dsimp only
    rw [line]
    by_cases sync : (x.1.scanLine Board.setByte x.2).1 = .verticalSync
    · rw [if_pos sync, if_pos sync]
      exact ⟨rfl, _, next⟩
    · rw [if_neg sync] at clear
      rw [if_neg sync, if_neg sync]
      have dma' : Video.displayListDma (x.1.scanLine Board.setByte x.2).2.2.memory = true :=
        (leaves_scanLine ..).agree.displayListDma.trans dma
      obtain ⟨lines, last⟩ := ih next dma' (fun z hz => clear z (.tail _ hz)) fun fresh i first => by
        obtain ⟨fresh, other⟩ := Bool.or_eq_false_iff.mp fresh
        exact load fresh i ((firstModeLine?_of_other other sync).trans first)
      exact ⟨congrArg (_ :: ·) lines, last⟩

/-! ## The end of a frame -/

section Ends

variable {antic : Antic} {b : Board}

theorem scrollRegion_step (store : Store) (h : (antic.step store b).1.endsFrame = true) :
    (antic.step store b).2.1.scrollRegion = false := by
  rw [step_fst] at h
  unfold step
  dsimp only
  split
  · rfl
  · rename_i decoded
    rw [decoded] at h
    obtain rfl := h
    rw [if_pos rfl]
    obtain ⟨request, ended⟩ := verticalSync_eq store { antic with current := _, remaining := 0 } _
    rw [ended]
  · rename_i decoded
    rw [decoded] at h
    cases h

theorem idle_of_verticalSync (dma : Video.displayListDma b.memory = true)
    (h : (antic.scanLine Board.setByte b).1 = .verticalSync) :
    (antic.scanLine Board.setByte b).2.1.remaining = 0 ∧
      (antic.scanLine Board.setByte b).2.1.scrollRegion = false := by
  have syncs : antic.Syncs b.memory := by
    by_contra draws
    rw [scanLine_of_dma _ dma draws] at h
    cases h
  have decoded := syncs
  unfold Syncs at decoded
  rw [if_pos dma, ← step_fst Board.setByte antic b] at decoded
  rw [scanLine_of_dma_of_syncs _ dma syncs, Antic.drawing, if_pos decoded.1]
  exact ⟨remaining_step _ _ _ decoded.2, scrollRegion_step _ decoded.2⟩

theorem idle_linesUpTo (n : Nat) (dma : Video.displayListDma b.memory = true)
    (ends : (antic.linesUpTo Board.setByte n b).1.getLast? = some .verticalSync) :
    (antic.linesUpTo Board.setByte n b).2.1.remaining = 0 ∧
      (antic.linesUpTo Board.setByte n b).2.1.scrollRegion = false := by
  induction n generalizing antic b with
  | zero => cases ends
  | succ n ih =>
    rw [Antic.linesUpTo] at ends ⊢
    dsimp only at ends ⊢
    by_cases sync : (antic.scanLine Board.setByte b).1 = .verticalSync
    · rw [if_pos sync]
      exact idle_of_verticalSync dma sync
    · rw [if_neg sync] at ends ⊢
      have dma' : Video.displayListDma (antic.scanLine Board.setByte b).2.2.memory = true :=
        (leaves_scanLine ..).agree.displayListDma.trans dma
      refine ih dma' ?_
      rw [List.getLast?_cons] at ends
      cases last : ((antic.scanLine Board.setByte b).2.1.linesUpTo Board.setByte n
          (antic.scanLine Board.setByte b).2.2).1.getLast? with
      | none =>
        rw [last] at ends
        exact absurd (Option.some.inj ends) sync
      | some line =>
        rw [last] at ends
        exact ends

end Ends

end Antic

namespace Display

open Antic

variable {d : Display} {b : Board} {n : Nat}

theorem getLast?_of_frameLength {lines : List ScanLine} (h : frameLength lines = .ok n) :
    lines.getLast? = some .verticalSync := by
  unfold frameLength at h
  split at h
  · assumption
  · cases h

/-- **A frame that ends where it began is drawn again**: it makes the same calls of the screen, takes as many
scan lines, and comes to the same places in the display list and in screen memory. It began with no line left
and no scroll region open, its first mode line loaded the place in screen memory, and nothing that it read lies
in the registers that the coprocessor writes, for which no hooks wait. -/
theorem frame_repeats (hooks : ∀ a ∈ registers, b.hooks.on a = [])
    (dma : Video.displayListDma b.memory = true) (idle : d.antic.remaining = 0)
    (closed : d.antic.scrollRegion = false) (ends : (d.frame Board.store b).1 = .ok n)
    (back : Video.displayList (d.frame Board.store b).2.2.memory = Video.displayList b.memory)
    (load : ∀ i, firstModeLine? Board.store (maxLines + 1) d.antic b = some i → i.loadsScan = true)
    (clear : ∀ x ∈ moments Board.store (maxLines + 1) d.antic b,
      ∀ a ∈ x.1.fetches Board.store x.2, a ∉ registers) :
    let calls := (d.antic.frame Board.store b).1
    let first := d.frame Board.store b
    let second := first.2.1.frame Board.store first.2.2
    (first.2.1.antic.frame Board.store first.2.2).1 = calls ∧
      first.2.1.screen = calls.foldl Screen.present d.screen ∧
      second.2.1.screen = calls.foldl Screen.present first.2.1.screen ∧
      second.1 = .ok n ∧
      Video.displayList second.2.2.memory = Video.displayList first.2.2.memory ∧
      second.2.1.antic.memoryScan = first.2.1.antic.memoryScan := by
  intro calls first second
  -- Both frames are those of storing without hooks.
  have plain : Plain Board.store b.hooks := plain_storeWithin hooks Board.nesting
  have firstLines : d.antic.frame Board.store b = d.antic.linesUpTo Board.setByte (maxLines + 1) b :=
    linesUpTo_plain plain rfl d.antic (maxLines + 1)
  have leaves : Leaves b first.2.2 := by
    show Leaves b (d.antic.frame Board.store b).2.2
    rw [firstLines]
    exact leaves_linesUpTo ..
  have secondLines : first.2.1.antic.frame Board.store first.2.2 =
      first.2.1.antic.linesUpTo Board.setByte (maxLines + 1) first.2.2 :=
    linesUpTo_plain plain leaves.hooks first.2.1.antic (maxLines + 1)
  -- The second frame begins in step with the first one.
  have frameEnds : (d.antic.linesUpTo Board.setByte (maxLines + 1) b).1.getLast? = some .verticalSync := by
    rw [← firstLines]
    exact getLast?_of_frameLength ends
  obtain ⟨idle', closed'⟩ := idle_linesUpTo (maxLines + 1) dma frameEnds
  rw [← firstLines] at idle' closed'
  have start : InStep false d.antic.memoryScan first.2.1.antic.memoryScan (d.antic, b)
      (first.2.1.antic, first.2.2) :=
    { remaining := idle'.trans idle.symm
      region := closed'.trans closed.symm
      cursor := back
      agree := leaves.agree
      scan := nofun
      fresh := fun _ => ⟨rfl, rfl⟩
      draws := fun left => absurd idle left }
  have loads : ∀ i, firstModeLine? Board.setByte (maxLines + 1) d.antic b = some i → i.loadsScan = true := by
    intro i decodes
    refine load i ?_
    rwa [firstModeLine?, moments_plain plain rfl]
  have clears : ∀ x ∈ moments Board.setByte (maxLines + 1) d.antic b,
      ∀ a ∈ x.1.fetches Board.setByte x.2, a ∉ registers := by
    intro x moment
    rw [← fetches_plain plain (hooks_of_mem_moments moment)]
    exact clear x (by rwa [moments_plain plain rfl])
  -- So it draws the same scan lines.
  obtain ⟨lines, loaded', last⟩ := start.linesUpTo dma (maxLines + 1) clears fun _ => loads
  rw [← firstLines, ← secondLines] at lines last
  have repeats : (first.2.1.antic.frame Board.store first.2.2).1 = calls := lines
  refine ⟨repeats, rfl, ?_, ?_, last.cursor, ?_⟩
  · exact congrArg (List.foldl Screen.present first.2.1.screen) repeats
  · exact (congrArg frameLength repeats).trans ends
  · cases loaded' with
    | true => exact last.scan rfl
    | false =>
      -- Without a mode line screen memory stays where the first frame left it.
      obtain ⟨stays, stays'⟩ := last.fresh rfl
      exact stays'

/-- A line of wide characters from `$1000` and the end of the frame, in a display list at the start of
memory. -/
def textList : Board where
  memory := (((Memory.zero.set Control.dmactl 0x21).set 0 0x46).set 2 0x10).set 3 0x41

/-- A display that has drawn nothing draws its characters again, although the first frame has left it at
another place in screen memory. -/
theorem frame_repeats_textList :
    let d := on (.recorder {})
    let first := d.frame Board.store textList
    first.1 = .ok 8 ∧ first.2.1.antic.memoryScan ≠ d.antic.memoryScan ∧
      (first.2.1.antic.frame Board.store first.2.2).1 = (d.antic.frame Board.store textList).1 ∧
      (first.2.1.frame Board.store first.2.2).1 = .ok 8 := by
  intro d first
  have length : first.1 = .ok 8 := by decide +kernel
  have moved : first.2.1.antic.memoryScan ≠ d.antic.memoryScan := by decide +kernel
  have load : (firstModeLine? Board.store (maxLines + 1) d.antic textList).all (·.loadsScan) = true := by
    decide +kernel
  -- As a test of the lists: the addresses are too many to decide this for all of them.
  have clear : (moments Board.store (maxLines + 1) d.antic textList).all (fun x =>
      (x.1.fetches Board.store x.2).all (· ∉ registers)) = true := by decide +kernel
  obtain ⟨calls, -, -, again, -, -⟩ :=
    frame_repeats (d := d) (b := textList) (fun _ _ => rfl) (by decide +kernel) rfl rfl length
      (by decide +kernel) ((Option.all_eq_true _ _).mp load) fun x moment a reads =>
        of_decide_eq_true (List.all_eq_true.mp (List.all_eq_true.mp clear x moment) a reads)
  exact ⟨length, moved, calls, again⟩

end Display

end Atari
