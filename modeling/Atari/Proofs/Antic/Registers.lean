import Atari.Proofs.Antic.Program
import Atari.Proofs.Board.Storing

/-!
# The registers that the coprocessor writes

Between two instructions of the processor, the coprocessor writes four locations of memory: the cursor
in the display list, the line counter and the interrupt status.

* `Antic.registers`: these locations;
* **`Program.does_scanLine`**: where a scan line stores, and when it ends a frame;
* `Antic.Plain`: a way to store that calls no hook for them;
* **`Antic.scanLine_plain`**, `Antic.linesUpTo_plain`: such a way draws the scan lines that storing
  without hooks draws;
* `Antic.Leaves`: what the coprocessor leaves alone; **`Antic.leaves_scanLine`**, `Antic.leaves_linesUpTo`: scan
  lines do;
* `Antic.Agree`: memories that differ in these locations at most.
-/

namespace Atari

namespace Antic

def registers : List Address := [Control.dlistl, Control.dlisth, Control.vcount, Control.nmist]

/-- What the coprocessor leaves alone: memory but for its registers, and everything on the board but
the log. -/
structure Leaves (b c : Board) : Prop where
  peek : ∀ a ∉ registers, c.peek a = b.peek a
  hooks : c.hooks = b.hooks
  displays : c.displays = b.displays
  journal : c.journal = b.journal
  verbosity : c.verbosity = b.verbosity
  stop : c.stop = b.stop
  overrun : c.overrun = b.overrun

namespace Leaves

variable {a b c : Board}

theorem refl (b : Board) : Leaves b b := ⟨fun _ _ => rfl, rfl, rfl, rfl, rfl, rfl, rfl⟩

theorem trans (h : Leaves a b) (k : Leaves b c) : Leaves a c where
  peek x hx := (k.peek x hx).trans (h.peek x hx)
  hooks := k.hooks.trans h.hooks
  displays := k.displays.trans h.displays
  journal := k.journal.trans h.journal
  verbosity := k.verbosity.trans h.verbosity
  stop := k.stop.trans h.stop
  overrun := k.overrun.trans h.overrun

theorem note (b : Board) (level : Level) (body : Unit → String) : Leaves b (b.note level body) := by
  constructor <;> simp

theorem setByte (b : Board) {a : Address} (ha : a ∈ registers) (v : Byte) :
    Leaves b (b.setByte a v) := by
  refine ⟨fun x hx => ?_, rfl, rfl, rfl, rfl, rfl, rfl⟩
  have hne : a ≠ x := fun e => hx (e ▸ ha)
  rw [Board.peek_setByte, if_neg hne]

end Leaves

/-- A way to store a byte that calls no hook for the registers of the coprocessor, on boards with the
given hooks. -/
def Plain (store : Store) (hooks : Hooks Hook) : Prop :=
  ∀ (b : Board) (a : Address) (v : Byte), b.hooks = hooks → a ∈ registers → store b a v = b.setByte a v

/-- **Storing on the bus is plain** when the registers of the coprocessor have no hooks. -/
theorem plain_storeWithin {hooks : Hooks Hook} (h : ∀ a ∈ registers, hooks.on a = []) (depth : Nat) :
    Plain (Board.storeWithin depth) hooks := fun b a v hb ha =>
  Board.storeWithin_of_on_eq_nil (by rw [hb, h a ha]) depth v

/-- The settings that the coprocessor makes itself. -/
def Own (s : VideoSetting) : Prop := ∀ w ∈ s.stores, w.1 ∈ registers

theorem own_vcount (v : Byte) : Own (.vcount v) := by simp [Own, VideoSetting.stores, registers]

theorem own_nmist (v : Byte) : Own (.nmist v) := by simp [Own, VideoSetting.stores, registers]

theorem own_displayList (a : Address) : Own (.displayList a) := by
  simp [Own, VideoSetting.stores, registers]

theorem leaves_apply (b : Board) {s : VideoSetting} (hs : Own s) : Leaves b (b.apply Board.setByte s) := by
  unfold Board.apply
  unfold Own at hs
  generalize s.stores = writes at hs
  induction writes generalizing b with
  | nil => exact .refl b
  | cons w writes ih =>
    have first := Leaves.setByte b (hs w List.mem_cons_self) w.2
    exact first.trans (ih _ fun w' hw' => hs w' (List.mem_cons_of_mem _ hw'))

end Antic

/-! ## What the parts of a scan line do -/

namespace Program

open Antic

/-- A program that stores in the registers of the coprocessor alone. -/
abbrev DoesOwn {α : Type} (P : α → Prop) (x : Program α) : Prop := x.Does (· ∈ registers) P

variable (antic : Antic)

theorem does_verticalSync : (verticalSync antic).DoesOwn fun r => r.frames = antic.frames + 1 := by
  refine .tell _ _ (.apply (own_vcount 0) (.look fun m => ?_))
  split
  · exact .apply (own_nmist _) rfl
  · exact rfl

theorem does_step :
    (step antic).DoesOwn fun r => r.2.frames = antic.frames + if r.1.endsFrame then 1 else 0 := by
  refine .look fun m => ?_
  dsimp only
  generalize DisplayInstruction.decode m (Video.displayList m) = i
  refine .tell _ _ ?_
  cases i with
  | blank lines interrupt => exact .apply (own_displayList _) rfl
  | jump target verticalBlank interrupt =>
    refine .apply (own_displayList _) ?_
    cases verticalBlank with
    | true => exact (does_verticalSync _).bind fun _ h => h
    | false => exact rfl
  | modeLine mode scan scrolls horizontal interrupt =>
    refine .apply (own_displayList _) (.look fun m => ?_)
    cases scan with
    | none => exact rfl
    | some a => exact rfl

theorem does_count : (count antic).DoesOwn fun r => r.frames = antic.frames :=
  .apply (own_vcount _) rfl

theorem frames_advance (m : Memory) : (antic.advance m).frames = antic.frames := by
  unfold Antic.advance
  split <;> rfl

theorem does_endLine : (endLine antic).DoesOwn fun r => r.frames = antic.frames := by
  refine (does_count antic).bind fun counted h => ?_
  dsimp only
  split
  · exact h
  · refine .look fun m => ?_
    have ended := (frames_advance
      { counted with remaining := counted.remaining - 1, row := counted.row + 1 } m).trans h
    split
    · exact .tell _ _ (.look fun m => .apply (own_nmist _) ended)
    · exact ended

/-- What is said of a scan line: it counts a frame when it turns out to be the vertical sync. -/
abbrev CountsFrame (frames : Nat) (r : ScanLine × Antic) : Prop :=
  r.2.frames = frames + if r.1 = .verticalSync then 1 else 0

theorem does_freeLine : (freeLine antic).DoesOwn (CountsFrame antic.frames) := by
  unfold freeLine
  split
  · exact (does_verticalSync antic).bind fun _ h => h
  · exact (does_count antic).bind fun _ h => h

theorem does_listLine : (listLine antic).DoesOwn (CountsFrame antic.frames) :=
  .look fun _ => (does_endLine antic).bind fun _ h => h

/-- **A scan line stores in the registers of the coprocessor alone**, and counts a frame when it turns out
to be the vertical sync. -/
theorem does_scanLine : (scanLine antic).DoesOwn (CountsFrame antic.frames) := by
  refine .look fun m => ?_
  split
  · split
    · refine (does_step antic).bind fun r h => ?_
      obtain ⟨i, stepped⟩ := r
      dsimp only at h ⊢
      cases ends : i.endsFrame with
      | true =>
        rw [ends] at h
        exact h
      | false =>
        rw [ends] at h
        have same : stepped.frames = antic.frames := h
        exact same ▸ does_listLine stepped
    · exact does_listLine antic
  · exact does_freeLine antic

variable {α : Type} {P : α → Prop} {x : Program α}

theorem Does.leaves (h : x.DoesOwn P) (b : Board) : Leaves b (x.run Board.setByte b).2 := by
  induction x generalizing b with
  | done x => exact .refl b
  | look rest ih => exact ih b.memory (h b.memory) b
  | note level body rest ih => exact (Leaves.note ..).trans (ih h _)
  | store a v rest ih => exact (Leaves.setByte b h.1 v).trans (ih h.2 _)

theorem Does.run_plain (h : x.DoesOwn P) {store : Store} {hooks : Hooks Hook} (hp : Plain store hooks)
    {b : Board} (hb : b.hooks = hooks) : x.run store b = x.run Board.setByte b := by
  induction x generalizing b with
  | done x => rfl
  | look rest ih => exact ih b.memory (h b.memory) hb
  | note level body rest ih => exact ih h ((b.note_hooks level body).trans hb)
  | store a v rest ih =>
    rw [run, run, hp b a v hb h.1]
    exact ih h.2 hb

end Program

namespace Antic

/-! ## What a scan line leaves alone -/

section Leaving

variable (antic : Antic) (b : Board)

theorem leaves_verticalSync : Leaves b (antic.verticalSync Board.setByte b).2 := by
  have leaves := (Program.does_verticalSync antic).leaves b
  rwa [Program.run_verticalSync] at leaves

theorem leaves_step : Leaves b (antic.step Board.setByte b).2.2 := by
  have leaves := (Program.does_step antic).leaves b
  rwa [Program.run_step] at leaves

theorem leaves_endLine : Leaves b (antic.endLine Board.setByte b).2 := by
  have leaves := (Program.does_endLine antic).leaves b
  rwa [Program.run_endLine] at leaves

/-- **A scan line changes the registers of the coprocessor and the log alone.** -/
theorem leaves_scanLine : Leaves b (antic.scanLine Board.setByte b).2.2 := by
  rw [Program.scanLine_eq]
  exact (Program.does_scanLine antic).leaves b

theorem leaves_linesUpTo (n : Nat) : Leaves b (antic.linesUpTo Board.setByte n b).2.2 := by
  induction n generalizing antic b with
  | zero => exact .refl b
  | succ n ih =>
    rw [linesUpTo]
    dsimp only
    split
    · exact leaves_scanLine ..
    · exact (leaves_scanLine ..).trans (ih ..)

theorem frames_scanLine (store : Store) : (antic.scanLine store b).2.1.frames =
    antic.frames + if (antic.scanLine store b).1 = .verticalSync then 1 else 0 := by
  rw [Program.scanLine_eq]
  exact (Program.does_scanLine antic).result store b

end Leaving

/-! ## Plain stores -/

section

variable {store : Store} {hooks : Hooks Hook} (hp : Plain store hooks) {b : Board}
  (hb : b.hooks = hooks) (antic : Antic)

include hp hb

theorem step_plain : antic.step store b = antic.step Board.setByte b := by
  have run := (Program.does_step antic).run_plain hp hb
  rw [Program.run_step, Program.run_step] at run
  simpa [Prod.ext_iff, and_assoc] using run

/-- **A plain way to store draws the scan line that storing without hooks draws.** -/
theorem scanLine_plain : antic.scanLine store b = antic.scanLine Board.setByte b := by
  rw [Program.scanLine_eq, Program.scanLine_eq, (Program.does_scanLine antic).run_plain hp hb]

/-- **A plain way to store draws the scan lines that storing without hooks draws.** -/
theorem linesUpTo_plain (n : Nat) : antic.linesUpTo store n b = antic.linesUpTo Board.setByte n b := by
  induction n generalizing antic b with
  | zero => rfl
  | succ n ih =>
    have drawn : (antic.scanLine Board.setByte b).2.2.hooks = hooks := by
      rw [(leaves_scanLine antic b).hooks, hb]
    rw [linesUpTo, linesUpTo, scanLine_plain hp hb]
    dsimp only
    rw [ih drawn]

end

/-! ## What the other registers say -/

/-- Memories that differ in the registers of the coprocessor at most. -/
def Agree (m k : Memory) : Prop := ∀ a ∉ registers, k.peek a = m.peek a

theorem Leaves.agree {b c : Board} (h : Leaves b c) : Agree b.memory c.memory := h.peek

namespace Agree

variable {m k k' : Memory} (h : Agree m k)

include h

theorem symm : Agree k m := fun a ha => (h a ha).symm

theorem trans (h' : Agree k k') : Agree m k' := fun a ha => (h' a ha).trans (h a ha)

theorem displayListDma : Video.displayListDma k = Video.displayListDma m := by
  unfold Video.displayListDma
  rw [h Control.dmactl (by decide)]

theorem vscrol : Video.vscrol k = Video.vscrol m := by
  unfold Video.vscrol
  rw [h Control.vscrol (by decide)]

end Agree

theorem Agree.leaves {b b' c c' : Board} (h : Agree b.memory c.memory) (hb : Leaves b b')
    (hc : Leaves c c') : Agree b'.memory c'.memory := hb.agree.symm.trans (h.trans hc.agree)

end Antic

end Atari
