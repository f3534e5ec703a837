import Atari.Proofs.Antic.Interrupts

/-!
# The beam

The place of the beam is kept three times: the coprocessor counts scan lines and frames, the screen has a
position of its own, and a register shows a half of the count. Each scan line moves all of them in the same
way, and a frame that does not end lets the register wrap around.

* `Beam`: the place of a beam; `Beam.behind`: where a scan line moves it;
* `Antic.beam_scanLine`, `Antic.beam_step`, `Antic.Chain.beam`: the beam of the coprocessor behind what it does;
* `Antic.Shows`: the register shows the place of the beam; **`Antic.shows_scanLine`**: it does behind a scan
  line;
* **`Display.beam_of_calls`**: all of them in a run of calls.
-/

namespace Atari

/-! ## Beams -/

/-- The place of a beam: the scan lines since the last vertical sync, and the frames so far. -/
structure Beam where
  line : Nat
  frames : Nat
  deriving DecidableEq, Repr

/-- The beam behind a scan line. -/
def Beam.behind (p : Beam) : ScanLine → Beam
  | .picture _ => ⟨p.line + 1, p.frames⟩
  | .verticalSync => ⟨0, p.frames + 1⟩

/-! ## Screens -/

namespace FrameBuffer

def beam (f : FrameBuffer) : Beam := ⟨f.y, f.frames⟩

theorem beam_pixels (f : FrameBuffer) (colors : List Byte) : (f.pixels colors).beam = f.beam := by
  induction colors generalizing f with
  | nil => rfl
  | cons color colors ih => exact ih (f.pixel color)

end FrameBuffer

namespace Screen

theorem present_frameBuffer (f : FrameBuffer) (line : ScanLine) :
    ∃ g, (frameBuffer f).present line = frameBuffer g ∧ g.beam = f.beam.behind line := by
  cases line with
  | picture pixels => exact ⟨_, rfl, congrArg (Beam.behind · (.picture pixels)) (f.beam_pixels pixels)⟩
  | verticalSync => exact ⟨_, rfl, rfl⟩

theorem foldl_present_frameBuffer (f : FrameBuffer) (lines : List ScanLine) :
    ∃ g, lines.foldl present (frameBuffer f) = frameBuffer g ∧ g.beam = lines.foldl Beam.behind f.beam := by
  induction lines generalizing f with
  | nil => exact ⟨f, rfl, rfl⟩
  | cons line lines ih =>
    obtain ⟨g, presented, moved⟩ := present_frameBuffer f line
    rw [List.foldl_cons, List.foldl_cons, presented, ← moved]
    exact ih g

end Screen

namespace Antic

variable (store : Store) (antic : Antic) (b : Board)

/-! ## The count of the coprocessor -/

def beam (antic : Antic) : Beam := ⟨antic.line, antic.frames⟩

theorem beam_verticalSync : (antic.verticalSync store b).1.beam = antic.beam.behind .verticalSync := by
  obtain ⟨request, ended⟩ := verticalSync_eq store antic b
  rw [ended]
  rfl

theorem beam_step : (antic.step store b).2.1.beam =
    if (antic.step store b).1.endsFrame then antic.beam.behind .verticalSync else antic.beam := by
  rw [step_fst]
  unfold step
  dsimp only
  cases DisplayInstruction.decode b.memory (Video.displayList b.memory) with
  | blank lines interrupt => rfl
  | jump target verticalBlank interrupt =>
    cases verticalBlank with
    | false => rfl
    | true => exact beam_verticalSync ..
  | modeLine mode scan scrolls horizontal interrupt => cases scan <;> rfl

theorem beam_endLine (pixels : List Byte) :
    (antic.endLine store b).1.beam = antic.beam.behind (.picture pixels) := by
  unfold endLine count advance
  dsimp only
  split
  · rfl
  · split <;> split <;> rfl

/-- **A scan line moves the beam** as the screen does. -/
theorem beam_scanLine :
    (antic.scanLine store b).2.1.beam = antic.beam.behind (antic.scanLine store b).1 := by
  unfold scanLine
  dsimp only
  split
  · split
    · have stepped := beam_step store antic b
      split
      · rename_i ends
        rwa [if_pos ends] at stepped
      · rename_i goesOn
        rw [if_neg goesOn] at stepped
        rw [← stepped]
        exact beam_endLine ..
    · exact beam_endLine ..
  · unfold freeLine
    split
    · exact beam_verticalSync ..
    · rfl

/-! ## The register of the count -/

/-- The register shows the place of the beam: half of the count, as far as it fits. -/
def Shows (x : Antic × Board) : Prop := x.2.peek Control.vcount = UInt8.ofNat (x.1.line / 2)

theorem peek_vcount_apply_vcount (v : Byte) :
    (b.apply Board.setByte (.vcount v)).peek Control.vcount = v := by
  simp [Board.apply, VideoSetting.stores, Board.peek_setByte]

theorem peek_vcount_apply_nmist (v : Byte) :
    (b.apply Board.setByte (.nmist v)).peek Control.vcount = b.peek Control.vcount := by
  simp [Board.apply, VideoSetting.stores, Board.peek_setByte, Control.vcount, Control.nmist]

theorem shows_verticalSync : Shows (antic.verticalSync Board.setByte b) := by
  have top : (0 : Byte) = UInt8.ofNat (0 / 2) := rfl
  unfold verticalSync Shows
  dsimp only
  split
  · dsimp only
    rw [peek_vcount_apply_nmist, peek_vcount_apply_vcount, top]
  · dsimp only
    rw [peek_vcount_apply_vcount, top]

theorem shows_count : Shows (antic.count Board.setByte b) := peek_vcount_apply_vcount ..

theorem line_advance (m : Memory) : (antic.advance m).line = antic.line := by
  unfold advance
  split <;> rfl

theorem shows_endLine : Shows (antic.endLine Board.setByte b) := by
  have counted := shows_count antic b
  unfold endLine
  generalize antic.count Board.setByte b = c at counted ⊢
  obtain ⟨next, c⟩ := c
  dsimp only
  split
  · exact counted
  · unfold Shows
    split
    · dsimp only
      rw [peek_vcount_apply_nmist, Board.note_peek, line_advance]
      exact counted
    · dsimp only
      rw [line_advance]
      exact counted

/-- The end of a frame shows the place of the beam, if the display list ends it too. -/
theorem shows_step (ends : (antic.step Board.setByte b).1.endsFrame = true) :
    Shows (antic.step Board.setByte b).2 := by
  rw [step_fst] at ends
  unfold step
  dsimp only
  cases decoded : DisplayInstruction.decode b.memory (Video.displayList b.memory) with
  | jump target verticalBlank interrupt =>
    rw [decoded] at ends
    obtain rfl : verticalBlank = true := ends
    exact shows_verticalSync ..
  | blank | modeLine =>
    rw [decoded] at ends
    cases ends

/-- **Behind a scan line the register shows the place of the beam**, however many lines the frame has. -/
theorem shows_scanLine : Shows (antic.scanLine Board.setByte b).2 := by
  unfold scanLine
  dsimp only
  split
  · split
    · split
      · exact shows_step _ _ ‹_›
      · exact shows_endLine ..
    · exact shows_endLine ..
  · unfold freeLine
    split
    · exact shows_verticalSync ..
    · exact shows_count ..

/-! ## Runs -/

/-- What a beat puts on the screen. -/
def Beat.shown : Beat → Option ScanLine
  | line store antic b => some (antic.scanLine store b).1
  | step store antic b => if (antic.step store b).1.endsFrame then some .verticalSync else none

theorem Beat.beam_after (t : Beat) :
    t.after.beam = t.shown.toList.foldl Beam.behind t.before.beam := by
  cases t with
  | line store antic b => exact beam_scanLine ..
  | step store antic b =>
    refine (beam_step store antic b).trans ?_
    rw [shown]
    split <;> rfl

/-- **The coprocessor moves its beam with each line that it puts on the screen.** -/
theorem Chain.beam {first last : Antic} {beats : List Beat} (chain : Chain first beats last) :
    last.beam = (beats.filterMap Beat.shown).foldl Beam.behind first.beam := by
  induction beats generalizing first with
  | nil =>
    obtain rfl : last = first := chain
    rfl
  | cons t beats ih =>
    obtain ⟨rfl, rest⟩ := chain
    rw [ih rest, t.beam_after, List.filterMap_cons]
    cases t.shown <;> rfl

theorem shown_moments (n : Nat) :
    ((moments store n antic b).map fun x => Beat.line store x.1 x.2).filterMap Beat.shown =
      (antic.linesUpTo store n b).1 := by
  induction n generalizing antic b with
  | zero => rfl
  | succ n ih =>
    rw [moments, linesUpTo]
    dsimp only
    rw [List.map_cons, List.filterMap_cons, Beat.shown]
    dsimp only
    split
    · rename_i ends
      rw [ends]
      rfl
    · rw [ih]

theorem screen_frame (d : Display) : (d.frame store b).2.1.screen =
    (d.antic.linesUpTo store (maxLines + 1) b).1.foldl Screen.present d.screen := by
  unfold Display.frame frame
  generalize linesUpTo store (maxLines + 1) d.antic b = x
  rfl

theorem Call.screen_perform (c : Call) (d : Display) :
    (c.perform d).screen = ((c.beats d.antic).filterMap Beat.shown).foldl Screen.present d.screen := by
  obtain ⟨task, store, b⟩ := c
  cases task with
  | scanLine => rfl
  | step =>
    show (if (d.antic.step store b).1.endsFrame then d.screen.verticalSync else d.screen) = _
    simp only [beats, List.filterMap_cons, List.filterMap_nil, Beat.shown]
    split <;> rfl
  | frame =>
    simp only [perform, beats]
    rw [screen_frame, shown_moments]

end Antic

namespace Display

open Antic

theorem screen_performAll (d : Display) (calls : List Call) : (d.performAll calls).screen =
    ((d.beats calls).filterMap Beat.shown).foldl Screen.present d.screen := by
  induction calls generalizing d with
  | nil => rfl
  | cons c calls ih =>
    rw [beats, List.filterMap_append, List.foldl_append, ← c.screen_perform]
    exact ih (c.perform d)

/-- The beams of the screen and of the coprocessor, in a run that begins with a blank frame buffer. -/
theorem exists_frameBuffer (width height : Nat) {beats : List Beat} {last : Antic}
    (chain : Chain {} beats last) :
    ∃ f, (beats.filterMap Beat.shown).foldl Screen.present (.frameBuffer (.blank width height)) =
      .frameBuffer f ∧ f.y = last.line ∧ f.frames = last.frames := by
  obtain ⟨f, screen, moved⟩ :=
    Screen.foldl_present_frameBuffer (.blank width height) (beats.filterMap Beat.shown)
  have same : f.beam = last.beam := moved.trans chain.beam.symm
  exact ⟨f, screen, congrArg Beam.line same, congrArg Beam.frames same⟩

/-- **The beam in a run of calls**, whatever happens to memory between them. A coprocessor that begins with a
blank frame buffer is always where its screen is: at the same line and in the same frame, behind the calls and
before everything that it does in them. Behind each scan line the register shows half of the line, modulo 256. -/
theorem beam_of_calls (width height : Nat) (calls : List Call) (plain : ∀ c ∈ calls, c.IsPlain) :
    let d := on (.frameBuffer (.blank width height))
    (∃ f, (d.performAll calls).screen = .frameBuffer f ∧
      f.y = (d.performAll calls).antic.line ∧ f.frames = (d.performAll calls).antic.frames) ∧
    (∀ us t ws, d.beats calls = us ++ t :: ws →
      ∃ f, (us.filterMap Beat.shown).foldl Screen.present d.screen = .frameBuffer f ∧
        f.y = t.before.line ∧ f.frames = t.before.frames) ∧
    ∀ store antic b, .line store antic b ∈ d.beats calls →
      ((antic.scanLine store b).2.2.peek Control.vcount).toNat =
        (antic.scanLine store b).2.1.line / 2 % 256 := by
  intro d
  have chain : Chain {} (d.beats calls) (d.performAll calls).antic := d.chain_beats calls
  refine ⟨?_, fun us t ws split => ?_, fun store antic b mem => ?_⟩
  · rw [screen_performAll]
    exact exists_frameBuffer width height chain
  · rw [split] at chain
    obtain ⟨_, before, rfl, -⟩ := chain_append.mp chain
    exact exists_frameBuffer width height before
  · have simple : Plain store b.hooks := d.plain_beats plain _ mem
    have shows : (antic.scanLine Board.setByte b).2.2.peek Control.vcount =
        UInt8.ofNat ((antic.scanLine Board.setByte b).2.1.line / 2) := shows_scanLine antic b
    rw [scanLine_plain simple rfl, shows]
    exact UInt8.toNat_ofNat'

theorem line_mem_beats (d : Display) (calls : List Call) (store : Store) (b : Board) :
    .line store (d.performAll calls).antic b ∈ d.beats (calls ++ [⟨.scanLine, store, b⟩]) := by
  induction calls generalizing d with
  | nil => exact .head _
  | cons c calls ih => exact List.mem_append_right _ (ih (c.perform d))

/-- A line of characters, the rest of the frame without a display list, and a line of the next frame. -/
def intoNextFrame : List Call := [characters, dark, characters]

/-- With another line the beam is behind the second line of the second frame, below the rows of its screen. -/
theorem beam_of_calls_intoNextFrame :
    let d := on (.frameBuffer (.blank 4 2))
    (∀ c ∈ intoNextFrame ++ [characters], c.IsPlain) ∧
      (∃ f, (d.performAll (intoNextFrame ++ [characters])).screen = .frameBuffer f ∧ f.y = 2 ∧ f.frames = 1) ∧
      (((d.performAll intoNextFrame).antic.scanLine Board.setByte (listed 0x02)).2.2.peek
        Control.vcount).toNat = 1 := by
  have plain : ∀ c ∈ intoNextFrame ++ [characters], c.IsPlain := by
    have free (task : Task) (b : Board) : Call.IsPlain ⟨task, Board.setByte, b⟩ := fun _ _ _ _ _ => rfl
    simp [intoNextFrame, characters, dark, free]
  have place : (((on (.frameBuffer (.blank 4 2))).performAll (intoNextFrame ++ [characters])).antic.line,
      ((on (.frameBuffer (.blank 4 2))).performAll (intoNextFrame ++ [characters])).antic.frames) =
        (2, 1) := by decide +kernel
  obtain ⟨lines, one⟩ := Prod.mk.inj place
  have count : (((on (.frameBuffer (.blank 4 2))).performAll intoNextFrame).antic.scanLine Board.setByte
      (listed 0x02)).2.1.line = 2 := by decide +kernel
  obtain ⟨⟨f, screen, line, frames⟩, -, register⟩ := beam_of_calls 4 2 _ plain
  have half := register _ _ _ (line_mem_beats _ intoNextFrame Board.setByte (listed 0x02))
  rw [count] at half
  exact ⟨plain, ⟨f, screen, line.trans lines, frames.trans one⟩, half⟩

end Display

end Atari
