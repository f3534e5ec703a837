import Atari.Proofs.Antic.Request
import Atari.Proofs.Antic.Rows

/-!
# The interrupts that the coprocessor asks for

An instruction asks for an interrupt when it is decoded, and gets it with its last scan line, if display list
interrupts are enabled then. The end of a frame asks for another one. What happens to memory between two scan
lines can change when an instruction ends, but not that it ends once.

* `Antic.Asks`: what asking for an interrupt changes; `Antic.asks_endLine` and so on: what each part of a scan
  line asks for;
* `Antic.Beat.latched`: the interrupt that a beat asks for; `Antic.Beat.asks`: when that is which;
* `Antic.Finishes`: a run that ends with the last scan line of an instruction; **`Antic.Chain.latched_iff`**:
  such a run ends with a display list interrupt if the instruction says so;
* **`Display.interrupts_of_calls`**: the interrupts of a run of calls.
-/

namespace Atari

/-- The bit of an interrupt source in the registers that enable interrupts and report them. -/
def InterruptSource.mask : InterruptSource → Byte
  | displayList => 0x80
  | verticalBlank => 0x40

namespace DisplayInstruction

theorem endsFrame_of_interrupt {m : Memory} {a : Address} (jumps : m.peek a &&& 0x0F = 1)
    (asks : m.peek a &&& 0x80 ≠ 0) : (decode m a).endsFrame = true := by
  have ends : m.peek a &&& 0xC0 ≠ 0 := by
    intro none
    have part : m.peek a &&& 0x80 = (m.peek a &&& 0xC0) &&& 0x80 := by
      rw [UInt8.and_assoc]
      rfl
    rw [part, none] at asks
    exact asks rfl
  unfold decode
  simp [jumps, endsFrame, ends]

theorem interrupt_decode (m : Memory) (a : Address) :
    (decode m a).interrupt = (m.peek a &&& 0x80 != 0) := by
  unfold decode
  dsimp only
  split <;> rfl

end DisplayInstruction

namespace Antic

/-! ## Parts of a scan line -/

/-- From one moment to another the coprocessor asks for an interrupt, or for none: it waits then, and its bit
is set in the interrupt status, which keeps all others. -/
structure Asks (r : Option InterruptSource) (x y : Antic × Board) : Prop where
  request : y.1.request = r.or x.1.request
  status : y.2.peek Control.nmist = x.2.peek Control.nmist ||| r.elim 0 InterruptSource.mask

variable {r : Option InterruptSource} {x y z : Antic × Board} (antic : Antic) (b : Board)

theorem Asks.trans (h : Asks none x y) (k : Asks r y z) : Asks r x z where
  request := by rw [k.request, h.request, Option.none_or]
  status := by
    rw [k.status, h.status]
    simp

theorem asks_none_iff : Asks none x y ↔
    y.1.request = x.1.request ∧ y.2.peek Control.nmist = x.2.peek Control.nmist :=
  ⟨fun h => ⟨h.request, by simpa using h.status⟩, fun h => ⟨h.1, by simpa using h.2⟩⟩

theorem Asks.some (source : InterruptSource) :
    Asks (some source) (antic, b) ({ antic with request := some source },
      b.apply Board.setByte (.nmist (b.peek Control.nmist ||| source.mask))) where
  request := rfl
  status := by simp [Board.apply, VideoSetting.stores, Board.peek_setByte]

theorem peek_nmist_apply_vcount (v : Byte) :
    (b.apply Board.setByte (.vcount v)).peek Control.nmist = b.peek Control.nmist := by
  simp [Board.apply, VideoSetting.stores, Board.peek_setByte, Control.vcount, Control.nmist]

theorem peek_nmist_apply_displayList (a : Address) :
    (b.apply Board.setByte (.displayList a)).peek Control.nmist = b.peek Control.nmist := by
  simp [Board.apply, VideoSetting.stores, Board.peek_setByte, Control.dlistl, Control.dlisth, Control.nmist]

theorem asks_count : Asks none (antic, b) (antic.count Board.setByte b) :=
  asks_none_iff.mpr ⟨rfl, peek_nmist_apply_vcount ..⟩

theorem Agree.displayListInterrupts {m k : Memory} (h : Agree m k) :
    Video.displayListInterrupts k = Video.displayListInterrupts m := by
  unfold Video.displayListInterrupts
  rw [h Control.nmien (by decide)]

theorem Agree.verticalBlankInterrupts {m k : Memory} (h : Agree m k) :
    Video.verticalBlankInterrupts k = Video.verticalBlankInterrupts m := by
  unfold Video.verticalBlankInterrupts
  rw [h Control.nmien (by decide)]

/-- What the end of a frame asks for. -/
def frameRequest (m : Memory) : Option InterruptSource :=
  if Video.verticalBlankInterrupts m then some .verticalBlank else none

theorem asks_verticalSync :
    Asks (frameRequest b.memory) (antic, b) (antic.verticalSync Board.setByte b) := by
  unfold verticalSync
  dsimp only
  generalize hc : (b.note .debug _).apply Board.setByte (.vcount 0) = c
  have counted : c.peek Control.nmist = b.peek Control.nmist := by
    rw [← hc, peek_nmist_apply_vcount, Board.note_peek]
  have enabled : Video.verticalBlankInterrupts c.memory = Video.verticalBlankInterrupts b.memory := by
    rw [← hc, (leaves_apply _ (own_vcount 0)).agree.verticalBlankInterrupts, Board.note_memory]
  have kept : Asks none (antic, b) ({ antic with line := 0, frames := antic.frames + 1, scrollRegion := false }, c) :=
    asks_none_iff.mpr ⟨rfl, counted⟩
  rw [frameRequest, ← enabled]
  split
  · exact kept.trans (.some _ c .verticalBlank)
  · exact kept

theorem asks_step : Asks (if (antic.step Board.setByte b).1.endsFrame then frameRequest b.memory else none)
    (antic, b) (antic.step Board.setByte b).2 := by
  have moved (body : Unit → String) (a : Address) (next : Antic) (same : next.request = antic.request) :
      Asks none (antic, b) (next, (b.note .debug body).apply Board.setByte (.displayList a)) :=
    asks_none_iff.mpr ⟨same, by rw [peek_nmist_apply_displayList, Board.note_peek]⟩
  rw [step_fst]
  unfold step
  dsimp only
  cases DisplayInstruction.decode b.memory (Video.displayList b.memory) with
  | blank lines interrupt => exact moved _ _ _ rfl
  | modeLine mode scan scrolls horizontal interrupt => cases scan <;> exact moved _ _ _ rfl
  | jump target verticalBlank interrupt =>
    cases verticalBlank with
    | false => exact moved _ _ _ rfl
    | true =>
      dsimp only
      rw [if_pos rfl]
      generalize hc : (b.note .debug _).apply Board.setByte (.displayList target) = c
      have agree : Agree b.memory c.memory := by
        rw [← hc]
        exact ((Leaves.note ..).trans (leaves_apply _ (own_displayList target))).agree
      have enabled : frameRequest c.memory = frameRequest b.memory := by
        rw [frameRequest, agree.verticalBlankInterrupts, frameRequest]
      show Asks (frameRequest b.memory) _ _
      rw [← enabled]
      refine .trans ?_ (asks_verticalSync _ c)
      rw [← hc]
      exact moved _ _ _ rfl

/-- What the end of a scan line asks for, told from the coprocessor behind it. -/
def lineRequest (antic : Antic) (m : Memory) : Option InterruptSource :=
  if antic.remaining = 0 ∧ antic.current.any (·.interrupt) ∧ Video.displayListInterrupts m then
    some .displayList else none

theorem advance_underWay (m : Memory) : (antic.advance m).current = antic.current ∧
    (antic.advance m).request = antic.request := by
  unfold advance
  split <;> exact ⟨rfl, rfl⟩

theorem asks_endLine : Asks (lineRequest (antic.endLine Board.setByte b).1 b.memory) (antic, b)
    (antic.endLine Board.setByte b) := by
  rw [lineRequest, remaining_endLine, current_endLine]
  obtain ⟨waits, status⟩ := asks_none_iff.mp (asks_count antic b)
  have enabled : Video.displayListInterrupts (antic.count Board.setByte b).2.memory =
      Video.displayListInterrupts b.memory :=
    (leaves_apply b (own_vcount _)).agree.displayListInterrupts
  have same : (antic.count Board.setByte b).1.remaining = antic.remaining ∧
    (antic.count Board.setByte b).1.current = antic.current := ⟨rfl, rfl⟩
  unfold endLine
  generalize antic.count Board.setByte b = c at waits status enabled same
  obtain ⟨next, c⟩ := c
  obtain ⟨remaining, current⟩ := same
  dsimp only at waits status enabled remaining current ⊢
  obtain ⟨underWay, request⟩ :=
    advance_underWay { next with remaining := next.remaining - 1, row := next.row + 1 } c.memory
  generalize advance { next with remaining := next.remaining - 1, row := next.row + 1 } c.memory = ended
    at underWay request ⊢
  rw [← enabled, ← remaining, ← current]
  by_cases more : next.remaining - 1 > 0
  · rw [if_pos more, if_neg fun e => by omega]
    exact asks_none_iff.mpr ⟨waits, status⟩
  rw [if_neg more, ← underWay]
  by_cases asks : ended.current.any (·.interrupt) ∧ Video.displayListInterrupts c.memory = true
  · have last : next.remaining - 1 = 0 := by omega
    have kept (body : Unit → String) : Asks none (antic, b) (ended, c.note .debug body) :=
      asks_none_iff.mpr ⟨request.trans waits, (Board.note_peek ..).trans status⟩
    rw [if_pos asks, if_pos ⟨last, asks⟩]
    exact (kept _).trans (.some ended _ .displayList)
  · rw [if_neg asks, if_neg fun e => asks e.2]
    exact asks_none_iff.mpr ⟨request.trans waits, status⟩

theorem asks_drawing : Asks
    (if antic.remaining = 0 ∧ (antic.step Board.setByte b).1.endsFrame then frameRequest b.memory else none)
    (antic, b) (antic.drawing Board.setByte b) := by
  unfold drawing
  by_cases none : antic.remaining = 0
  · simpa [none] using asks_step antic b
  · simpa [none] using asks_none_iff.mpr ⟨rfl, rfl⟩

theorem leaves_drawing : Leaves b (antic.drawing Board.setByte b).2 := by
  unfold drawing
  split
  · exact leaves_step antic b
  · exact .refl b

/-! ## Beats -/

namespace Beat

def board : Beat → Board
  | line _ _ b | step _ _ b => b

def left : Beat → Board
  | line store antic b => (antic.scanLine store b).2.2
  | step store antic b => (antic.step store b).2.2

/-- Whether a beat turns out to end the frame. -/
def endsFrame : Beat → Bool
  | line store antic b => (antic.scanLine store b).1 = .verticalSync
  | step store antic b => (antic.step store b).1.endsFrame

/-- The byte of the instruction at the cursor. -/
def opcode (t : Beat) : Byte := t.board.peek (Video.displayList t.board.memory)

/-- The scan lines of the instruction at the cursor. -/
def lineCount (t : Beat) : Nat :=
  t.atCursor.lineCount (Video.vscrol t.board.memory).toNat t.before.scrollRegion

/-- A beat calls no hook for the registers of the coprocessor. -/
def IsPlain : Beat → Prop
  | line store _ b | step store _ b => Plain store b.hooks

/-- The same beat with no interrupt that waits. -/
def alone : Beat → Beat
  | line store antic b => line store { antic with request := none } b
  | step store antic b => step store { antic with request := none } b

/-- The interrupt that a beat asks for: the one that waits behind it if none does before. -/
def latched (t : Beat) : Option InterruptSource := t.alone.after.request

variable {t : Beat}

theorem eq_alone (t : Beat) :
    t.after = t.alone.after.behind t.before.request ∧ t.left = t.alone.left ∧
      t.endsFrame = t.alone.endsFrame := by
  have split (antic : Antic) : { antic with request := none : Antic }.behind antic.request = antic := by
    unfold behind
    rw [Option.none_or]
  cases t with
  | line store antic b =>
    have drawn := scanLine_behind store { antic with request := none } antic.request b
    rw [split] at drawn
    simp [after, alone, left, endsFrame, before, drawn]
  | step store antic b =>
    have stepped := step_behind store { antic with request := none } antic.request b
    rw [split] at stepped
    simp [after, alone, left, endsFrame, before, stepped]

theorem endsFrame_iff : t.endsFrame = true ↔ t.Syncs := by
  cases t with
  | step store antic b => rw [endsFrame, step_fst, Syncs]
  | line store antic b =>
    rw [endsFrame, decide_eq_true_iff]
    refine ⟨fun ends => ?_, scanLine_of_syncs store⟩
    by_contra draws
    have draws : ¬antic.Syncs b.memory := draws
    by_cases dma : Video.displayListDma b.memory = true
    · rw [scanLine_of_dma store dma draws] at ends
      cases ends
    · rw [scanLine_of_not_dma store dma draws] at ends
      cases ends

/-- **What a beat asks for**, told from what it comes to. -/
theorem asks (plain : t.IsPlain) :
    Asks (if t.endsFrame then frameRequest t.board.memory
      else if t.lists then lineRequest t.after t.board.memory else none)
      (t.before, t.board) (t.after, t.left) := by
  cases t with
  | step store antic b =>
    simp only [endsFrame, lists, before, board, after, left, step_plain plain rfl]
    exact asks_step antic b
  | line store antic b =>
    simp only [endsFrame, lists, before, board, after, left, scanLine_plain plain rfl]
    by_cases dma : Video.displayListDma b.memory = true
    · have begun := asks_drawing antic b
      have ends : antic.Syncs b.memory ↔
          antic.remaining = 0 ∧ (antic.step Board.setByte b).1.endsFrame = true := by
        rw [Antic.Syncs, if_pos dma, step_fst]
      by_cases syncs : antic.Syncs b.memory
      · rw [if_pos (ends.mp syncs)] at begun
        rw [scanLine_of_dma_of_syncs _ dma syncs]
        exact begun
      · rw [if_neg (ends.not.mp syncs)] at begun
        have agree := (leaves_drawing antic b).agree
        rw [scanLine_of_dma _ dma syncs, listLine]
        generalize antic.drawing Board.setByte b = x at begun agree ⊢
        have ended := asks_endLine x.1 x.2
        rw [lineRequest, agree.displayListInterrupts, ← lineRequest] at ended
        simp only [dma]
        exact begun.trans ended
    · rw [scanLine, if_neg dma, freeLine]
      by_cases last : antic.line + 1 ≥ linesPerFrame
      · rw [if_pos last]
        exact asks_verticalSync antic b
      · rw [if_neg last]
        simp only [dma]
        exact asks_count antic b

theorem latched_eq (plain : t.IsPlain) : t.latched =
    if t.endsFrame then frameRequest t.board.memory
    else if t.lists then lineRequest t.after t.board.memory else none := by
  obtain ⟨after, -, ends⟩ := t.eq_alone
  have alone := (asks (t := t.alone) (by cases t <;> exact plain)).request
  have waits : t.alone.before.request = none := by cases t <;> rfl
  have board : t.alone.board = t.board := by cases t <;> rfl
  have lists : t.alone.lists = t.lists := by cases t <;> rfl
  have same (m : Memory) : lineRequest t.after m = lineRequest t.alone.after m := by
    rw [after]
    rfl
  dsimp only at alone
  rw [waits, Option.or_none, board, lists, ← ends, ← same] at alone
  exact alone

/-- **What a beat asks for**, in front of what waits. -/
theorem asks_latched (plain : t.IsPlain) : Asks t.latched (t.before, t.board) (t.after, t.left) :=
  latched_eq plain ▸ asks plain

theorem latched_verticalBlank_iff (plain : t.IsPlain) : t.latched = some .verticalBlank ↔
    t.endsFrame = true ∧ Video.verticalBlankInterrupts t.board.memory = true := by
  rw [latched_eq plain, frameRequest, lineRequest]
  cases t.endsFrame <;> simp

theorem latched_displayList_iff (plain : t.IsPlain) : t.latched = some .displayList ↔
    (t.endsFrame = false ∧ t.lists = true ∧ t.after.remaining = 0) ∧
      t.after.current.any (·.interrupt) = true ∧ Video.displayListInterrupts t.board.memory = true := by
  rw [latched_eq plain, frameRequest, lineRequest]
  cases t.endsFrame <;> simp [and_assoc]

/-- The lines that a beat leaves which decodes an instruction. -/
theorem remaining_of_decodes (plain : t.IsPlain) (h : t.decodes = true) :
    t.after.remaining = t.lineCount - if t.lists then 1 else 0 := by
  have counted (store : Store) (antic : Antic) (b : Board) (plain : Plain store b.hooks) :
      (antic.step store b).2.1.remaining =
        (line store antic b).lineCount := by
    rw [step_plain plain rfl, (step_lines ..).1, step_fst, (leaves_step ..).agree.vscrol]
    rfl
  cases t with
  | step store antic b => exact counted store antic b plain
  | line store antic b =>
    obtain ⟨dma, none⟩ : Video.displayListDma b.memory = true ∧ antic.remaining = 0 := by
      simpa [decodes] using h
    have begun : (antic.drawing store b).1.remaining = (line store antic b).lineCount := by
      rw [drawing, if_pos none]
      exact counted store antic b plain
    show (antic.scanLine store b).2.1.remaining = _ - if Video.displayListDma b.memory = true then 1 else 0
    rw [if_pos dma, ← begun]
    by_cases syncs : antic.Syncs b.memory
    · rw [scanLine_of_dma_of_syncs store dma syncs]
      unfold Antic.Syncs at syncs
      rw [if_pos dma, ← step_fst store antic b] at syncs
      rw [drawing, if_pos none, remaining_step _ _ _ syncs.2]
    · rw [scanLine_of_dma store dma syncs]
      exact remaining_endLine ..

theorem endsFrame_of_decodes (h : t.decodes = true) : t.endsFrame = t.atCursor.endsFrame := by
  rw [Bool.eq_iff_iff, endsFrame_iff]
  cases t with
  | step store antic b => rfl
  | line store antic b =>
    obtain ⟨dma, none⟩ : Video.displayListDma b.memory = true ∧ antic.remaining = 0 := by
      simpa [decodes] using h
    show antic.Syncs b.memory ↔ _
    rw [Antic.Syncs, if_pos dma]
    exact and_iff_right none

theorem decodes_of_endsFrame (lists : t.lists = true) (ends : t.endsFrame = true) : t.decodes = true := by
  rw [decodes_iff lists]
  rw [endsFrame_iff] at ends
  cases t with
  | step store antic b => cases lists
  | line store antic b =>
    have dma : Video.displayListDma b.memory = true := lists
    have ends : antic.Syncs b.memory := ends
    rw [Antic.Syncs, if_pos dma] at ends
    exact ends.1

theorem lineCount_pos_iff : 0 < t.lineCount ↔ t.atCursor.endsFrame = false := by
  cases t <;> exact DisplayInstruction.lineCount_pos_iff ..

end Beat

/-! ## Runs -/

section Runs

variable {first last : Antic} {beats us vs : List Beat} {s t : Beat}

theorem exists_latest (beats : List Beat) : (∀ t ∈ beats, t.decodes = false) ∨
    ∃ us s vs, beats = us ++ s :: vs ∧ s.decodes = true ∧ ∀ v ∈ vs, v.decodes = false := by
  induction beats with
  | nil => exact .inl fun _ h => nomatch h
  | cons t beats ih =>
    obtain idle | ⟨us, s, vs, rfl, found⟩ := ih
    · by_cases decodes : t.decodes = true
      · exact .inr ⟨[], t, beats, rfl, decodes, idle⟩
      · exact .inl (List.forall_mem_cons.mpr ⟨Bool.eq_false_iff.mpr decodes, idle⟩)
    · exact .inr ⟨t :: us, s, vs, rfl, found⟩

theorem Chain.behind_decodes (chain : Chain first (us ++ s :: vs) last) (plain : s.IsPlain)
    (decodes : s.decodes = true) (idle : ∀ v ∈ vs, v.decodes = false) :
    last.current = some s.atCursor ∧ last.remaining = s.lineCount - (s :: vs).countP (·.lists) := by
  obtain ⟨-, -, -, chain⟩ := chain_append.mp chain
  obtain ⟨current, remaining⟩ := chain.idle idle
  refine ⟨current.trans (Beat.current_of_decodes decodes), ?_⟩
  rw [remaining, Beat.remaining_of_decodes plain decodes, List.countP_cons, Nat.sub_sub, Nat.add_comm]

theorem eq_or_behind {xs ys : List Beat} (split : us ++ [t] = xs ++ s :: ys) :
    t = s ∧ ys = [] ∨ ∃ zs, ys = zs ++ [t] ∧ us = xs ++ s :: zs := by
  obtain rfl | ⟨zs, z, rfl⟩ := ys.eq_nil_or_concat
  · exact .inl ⟨by simpa using (List.append_inj' split rfl).2, rfl⟩
  · rw [List.concat_eq_append] at split ⊢
    rw [← List.cons_append, ← List.append_assoc] at split
    obtain ⟨front, last⟩ := List.append_inj' split rfl
    obtain rfl : t = z := by simpa using last
    exact .inr ⟨zs, rfl, front⟩

/-- Behind the beats `us`, the scan line `t` is the last one of the instruction that `s` has decoded: nothing
was decoded since, and as many scan lines of a display list were drawn as the instruction has. -/
def Finishes (us : List Beat) (t s : Beat) : Prop :=
  ∃ xs ys, us ++ [t] = xs ++ s :: ys ∧ s.decodes = true ∧ (∀ y ∈ ys, y.decodes = false) ∧
    t.lists = true ∧ (s :: ys).countP (·.lists) = s.lineCount

theorem Finishes.lineCount_pos (h : Finishes us t s) : 0 < s.lineCount := by
  obtain ⟨xs, ys, split, -, -, lists, all⟩ := h
  rw [← all, List.countP_pos_iff]
  obtain ⟨rfl, -⟩ | ⟨zs, rfl, -⟩ := eq_or_behind split
  · exact ⟨t, .head _, lists⟩
  · exact ⟨t, by simp, lists⟩

section

variable (chain : Chain first (us ++ [t]) last) (plain : ∀ u ∈ us ++ [t], u.IsPlain)

include chain plain

theorem Finishes.leaves_none (h : Finishes us t s) : t.endsFrame = false ∧ t.after.remaining = 0 ∧
    t.after.current = some s.atCursor := by
  have pos := h.lineCount_pos
  obtain ⟨xs, ys, split, decodes, idle, lists, all⟩ := h
  obtain rfl : last = t.after := by
    obtain ⟨-, -, -, rest⟩ := chain_append.mp chain
    exact rest
  have simple : s.IsPlain := plain s (by simp [split])
  rw [split] at chain
  obtain ⟨current, left⟩ := chain.behind_decodes simple decodes idle
  refine ⟨Bool.eq_false_iff.mpr fun ends => ?_, by omega, current⟩
  obtain ⟨rfl, rfl⟩ | ⟨zs, rfl, -⟩ := eq_or_behind split
  · rw [Beat.lineCount_pos_iff, ← Beat.endsFrame_of_decodes decodes, ends] at pos
    cases pos
  · have still : t.decodes = false := idle t (by simp)
    rw [Beat.decodes_of_endsFrame lists ends] at still
    cases still

/-- **A scan line that leaves none is the last one of an instruction.** -/
theorem Chain.exists_finishes (fresh : first.remaining = 0) (stays : t.endsFrame = false)
    (lists : t.lists = true) (none : t.after.remaining = 0) : ∃ s, Finishes us t s := by
  obtain idle | ⟨xs, s, ys, split, decodes, idle⟩ := exists_latest (us ++ [t])
  · obtain ⟨_, before, rfl, -⟩ := chain_append.mp chain
    have left := (before.idle fun u hu => idle u (by simp [hu])).2
    rw [fresh, Nat.zero_sub, ← Beat.decodes_iff lists, idle t (by simp)] at left
    cases left
  · refine ⟨s, xs, ys, split, decodes, idle, lists, ?_⟩
    have simple : s.IsPlain := plain s (by simp [split])
    obtain ⟨middle, before, rfl, rfl⟩ := chain_append.mp chain
    rw [split] at chain
    have left := (chain.behind_decodes simple decodes idle).2
    suffices fits : (s :: ys).countP (·.lists) ≤ s.lineCount by omega
    obtain ⟨rfl, rfl⟩ | ⟨zs, rfl, rfl⟩ := eq_or_behind split
    · have pos : 0 < t.lineCount := by
        rw [Beat.lineCount_pos_iff, ← Beat.endsFrame_of_decodes decodes]
        exact stays
      simpa [lists] using Nat.succ_le_of_lt pos
    · -- The scan line before has left one, since this one has decoded nothing.
      have more : t.before.remaining ≠ 0 := by
        rw [ne_eq, ← Beat.decodes_iff lists, idle t (by simp)]
        exact Bool.false_ne_true
      have idle' : ∀ z ∈ zs, z.decodes = false := fun z hz => idle z (by simp [hz])
      have left' := (before.behind_decodes simple decodes idle').2
      rw [← List.cons_append, List.countP_append, List.countP_singleton, if_pos lists]
      omega

/-- **When a display list interrupt is asked for**: with the last scan line of a blank line or a mode line
that was decoded with its highest bit set. -/
theorem Chain.latched_iff (fresh : first.remaining = 0) : t.latched = some .displayList ↔
    Video.displayListInterrupts t.board.memory = true ∧
      ∃ s, Finishes us t s ∧ s.opcode &&& 0x0F ≠ 1 ∧ s.opcode &&& 0x80 ≠ 0 := by
  have interrupt (s : Beat) : s.atCursor.interrupt = true ↔ s.opcode &&& 0x80 ≠ 0 := by
    cases s <;> simp [Beat.atCursor, DisplayInstruction.interrupt_decode, Beat.opcode, Beat.board, Board.peek]
  rw [Beat.latched_displayList_iff (plain t (by simp))]
  constructor
  · rintro ⟨⟨stays, lists, none⟩, asks, enabled⟩
    obtain ⟨s, finishes⟩ := chain.exists_finishes plain fresh stays lists none
    obtain ⟨-, -, current⟩ := finishes.leaves_none chain plain
    rw [current, Option.any_some, interrupt] at asks
    refine ⟨enabled, s, finishes, fun jumps => ?_, asks⟩
    have stays := Beat.lineCount_pos_iff.mp finishes.lineCount_pos
    have ends : s.atCursor.endsFrame = true := by
      cases s <;> exact DisplayInstruction.endsFrame_of_interrupt jumps asks
    rw [ends] at stays
    cases stays
  · rintro ⟨enabled, s, finishes, -, asks⟩
    obtain ⟨stays, none, current⟩ := finishes.leaves_none chain plain
    obtain ⟨-, -, -, -, -, lists, -⟩ := finishes
    refine ⟨⟨stays, lists, none⟩, ?_, enabled⟩
    rw [current, Option.any_some, interrupt]
    exact asks

end

/-- **Between two display list interrupts an instruction is decoded.** -/
theorem Chain.exists_decodes {t' : Beat} {ws : List Beat} (chain : Chain first (us ++ t :: (vs ++ t' :: ws)) last)
    (plain : t.IsPlain) (plain' : t'.IsPlain) (asks : t.latched = some .displayList)
    (asks' : t'.latched = some .displayList) : ∃ s ∈ vs ++ [t'], s.decodes = true := by
  by_contra idle
  have idle : ∀ s ∈ vs ++ [t'], s.decodes = false := fun s hs =>
    Bool.eq_false_iff.mpr fun decodes => idle ⟨s, hs, decodes⟩
  obtain ⟨-, -, -, chain⟩ := chain_append.mp chain
  obtain ⟨_, between, rfl, -⟩ := chain_append.mp chain
  obtain ⟨⟨-, -, none⟩, -⟩ := (Beat.latched_displayList_iff plain).mp asks
  obtain ⟨⟨-, lists, -⟩, -⟩ := (Beat.latched_displayList_iff plain').mp asks'
  have left := (between.idle fun v hv => idle v (by simp [hv])).2
  rw [none, Nat.zero_sub, ← Beat.decodes_iff lists, idle t' (by simp)] at left
  cases left

/-- **An instruction that ends the frame asks for no display list interrupt**, and nothing does before the next
one is decoded. -/
theorem Chain.latched_ne {ws : List Beat} (chain : Chain first (us ++ s :: (vs ++ ws)) last)
    (plain : ∀ v ∈ s :: vs, v.IsPlain) (decodes : s.decodes = true) (ends : s.atCursor.endsFrame = true)
    (idle : ∀ v ∈ vs, v.decodes = false) : ∀ t ∈ s :: vs, t.latched ≠ some .displayList := by
  intro t ht asks
  obtain ⟨⟨stays, lists, -⟩, -⟩ := (Beat.latched_displayList_iff (plain t ht)).mp asks
  obtain rfl | behind := List.mem_cons.mp ht
  · rw [Beat.endsFrame_of_decodes decodes, ends] at stays
    cases stays
  · obtain ⟨xs, ys, rfl⟩ := List.append_of_mem behind
    obtain ⟨-, -, -, chain⟩ := chain_append.mp chain
    rw [List.append_assoc, List.cons_append] at chain
    obtain ⟨_, between, rfl, -⟩ := chain_append.mp chain
    have none : s.lineCount = 0 := by
      by_contra some
      rw [Beat.lineCount_pos_iff.mp (Nat.pos_of_ne_zero some)] at ends
      cases ends
    have left := (between.idle fun v hv => idle v (by simp [hv])).2
    rw [Beat.remaining_of_decodes (plain s (.head _)) decodes, none, Nat.zero_sub, Nat.zero_sub,
      ← Beat.decodes_iff lists, idle t (by simp)] at left
    cases left

end Runs

namespace Call

/-- A call stores without calling hooks for the registers of the coprocessor. -/
def IsPlain (c : Call) : Prop := Plain c.store c.board.hooks

theorem IsPlain.beats {c : Call} (h : c.IsPlain) (antic : Antic) : ∀ t ∈ c.beats antic, t.IsPlain := by
  obtain ⟨task, store, b⟩ := c
  have plain : Plain store b.hooks := h
  cases task with
  | scanLine | step =>
    intro t ht
    obtain rfl := List.mem_singleton.mp ht
    exact plain
  | frame =>
    intro t ht
    obtain ⟨x, hx, rfl⟩ := List.mem_map.mp ht
    rw [moments_plain plain rfl] at hx
    show Plain store x.2.hooks
    rw [hooks_of_mem_moments hx]
    exact plain

end Call

end Antic

namespace Display

open Antic

theorem plain_beats (d : Display) {calls : List Call} (plain : ∀ c ∈ calls, c.IsPlain) :
    ∀ t ∈ d.beats calls, t.IsPlain := by
  induction calls generalizing d with
  | nil => exact fun _ h => nomatch h
  | cons c calls ih =>
    intro t ht
    obtain here | later := List.mem_append.mp ht
    · exact (plain c (.head _)).beats d.antic t here
    · exact ih (c.perform d) (fun c hc => plain c (.tail _ hc)) t later

/-- **The interrupts of a run of calls**, whatever happens to memory between them. A display list interrupt is
asked for with the last scan line of each blank line or mode line that was decoded with its highest bit set, if
they are enabled then, and a vertical blank interrupt with each end of a frame, if they are. It takes the place
of what waits, and its bit is set in the interrupt status, which keeps all others. No instruction asks twice,
and a jump with its highest bit set does not ask for a display list interrupt. -/
theorem interrupts_of_calls (screen : Screen) (calls : List Call) (plain : ∀ c ∈ calls, c.IsPlain) :
    (∀ us t ws, (on screen).beats calls = us ++ t :: ws →
      (t.latched = some .displayList ↔ Video.displayListInterrupts t.board.memory = true ∧
        ∃ s, Finishes us t s ∧ s.opcode &&& 0x0F ≠ 1 ∧ s.opcode &&& 0x80 ≠ 0) ∧
      (t.latched = some .verticalBlank ↔
        t.endsFrame = true ∧ Video.verticalBlankInterrupts t.board.memory = true) ∧
      t.after.request = t.latched.or t.before.request ∧
      t.left.peek Control.nmist = t.board.peek Control.nmist ||| t.latched.elim 0 InterruptSource.mask) ∧
    (∀ us t vs t' ws, (on screen).beats calls = us ++ t :: (vs ++ t' :: ws) →
      t.latched = some .displayList → t'.latched = some .displayList →
        ∃ s ∈ vs ++ [t'], s.decodes = true) ∧
    (∀ us s vs ws, (on screen).beats calls = us ++ s :: (vs ++ ws) → s.decodes = true →
      s.opcode &&& 0x0F = 1 → s.opcode &&& 0x80 ≠ 0 → (∀ v ∈ vs, v.decodes = false) →
        ∀ t ∈ s :: vs, t.latched ≠ some .displayList) := by
  have chain := (on screen).chain_beats calls
  have plain := (on screen).plain_beats plain
  refine ⟨fun us t ws split => ?_, fun us t vs t' ws split asks asks' => ?_,
    fun us s vs ws split decodes jumps bit idle => ?_⟩
  · rw [split] at chain plain
    have simple : t.IsPlain := plain t (by simp)
    have asks := Beat.asks_latched simple
    rw [← List.singleton_append, ← List.append_assoc] at chain plain
    obtain ⟨_, chain, -⟩ := chain_append.mp chain
    exact ⟨chain.latched_iff (fun u hu => plain u (List.mem_append_left _ hu)) rfl,
      Beat.latched_verticalBlank_iff simple, asks.request, asks.status⟩
  · rw [split] at chain plain
    exact chain.exists_decodes (plain t (by simp)) (plain t' (by simp)) asks asks'
  · rw [split] at chain plain
    have ends : s.atCursor.endsFrame = true := by
      cases s <;> exact DisplayInstruction.endsFrame_of_interrupt jumps bit
    exact chain.latched_ne (fun v hv => plain v (by simp at hv ⊢; tauto)) decodes ends idle

/-- A scan line of characters that ask for an interrupt. -/
def asking : Call where
  task := .scanLine
  store := Board.setByte
  board := { memory := (listed 0x82).memory.set Control.nmien 0x80 }

/-- The last of eight scan lines of characters asks for the interrupt. -/
theorem interrupts_of_calls_asking :
    let us := (on (.recorder {})).beats (List.replicate 7 asking)
    let t := Beat.line Board.setByte ((on (.recorder {})).performAll (List.replicate 7 asking)).antic asking.board
    (∀ c ∈ List.replicate 8 asking, c.IsPlain) ∧
      (on (.recorder {})).beats (List.replicate 8 asking) = us ++ [t] ∧ t.latched = some .displayList ∧
      (∃ s, Finishes us t s ∧ s.opcode &&& 0x0F ≠ 1 ∧ s.opcode &&& 0x80 ≠ 0) ∧
      t.left.peek Control.nmist = 0x80 := by
  intro us t
  have plain : ∀ c ∈ List.replicate 8 asking, c.IsPlain := by
    intro c hc
    rw [List.eq_of_mem_replicate hc]
    exact fun _ _ _ _ _ => rfl
  have split : (on (.recorder {})).beats (List.replicate 8 asking) = us ++ [t] := rfl
  have latched : t.latched = some .displayList := by decide +kernel
  obtain ⟨asks, -, -, status⟩ := (interrupts_of_calls _ _ plain).1 us t [] split
  refine ⟨plain, split, latched, (asks.mp latched).2, ?_⟩
  rw [status, latched]
  decide +kernel

end Display

end Atari
