import Atari.Proofs.Board.Records
import Atari.Proofs.Processor.Breakpoints
import Atari.Proofs.Processor.Writes

/-!
# Processors under watch

The parts of an instruction look neither at the breakpoints nor at what was written down before. They
do the same to a processor with other breakpoints and earlier records.

* `Processor.watched`: such a processor;
* **`Processor.enterInterrupt_watched`**: an interrupt writes the command pointer once, and last.
-/

namespace Atari

namespace Processor

/-- The processor with other breakpoints, and with its records behind earlier ones. -/
def watched (p : Processor) (ks : Delegate Breakpoint Reaction) (past : Records) : Processor :=
  { p with breakpoints := ks, board := p.board.after past }

variable (p : Processor) (ks : Delegate Breakpoint Reaction) (past : Records)

theorem store_watched (a : Address) (v : Byte) :
    (p.watched ks past).store a v = (p.store a v).watched ks past :=
  congrArg (fun b : Board => { p with breakpoints := ks, board := b }) (Board.store_after p.board a v)

theorem note_watched (level : Level) (body : Unit → String) :
    (p.watched ks past).onBoard (·.note level body) =
      (p.onBoard (·.note level body)).watched ks past :=
  congrArg (fun b : Board => { p with breakpoints := ks, board := b })
    (Board.note_after p.board level body)

theorem setRegister_watched (register : Register) (v : Byte) :
    (p.watched ks past).setRegister register v = (p.setRegister register v).watched ks past := by
  have observed (labels : List String) (b : Board) :
      labels.foldl (fun b l => b.record (.observed l v)) (b.after past) =
        (labels.foldl (fun b l => b.record (.observed l v)) b).after past := by
    induction labels generalizing b with
    | nil => rfl
    | cons l labels ih => exact ih (b.record (.observed l v))
  have told := congrArg
    (fun b : Board => { p.putRegister register v with breakpoints := ks, board := b })
    (observed ((p.observers register).called fun _ => true) p.board)
  cases register with
  | a | x | y => exact told

theorem push_watched (v : Byte) : (p.watched ks past).push v = (p.push v).watched ks past :=
  congrArg (fun q : Processor => q.setSp (p.registers.sp - 1))
    (store_watched p ks past (stackSlot p.registers.sp) v)

theorem pushAddress_watched (a : Address) :
    (p.watched ks past).pushAddress a = (p.pushAddress a).watched ks past := by
  unfold pushAddress
  rw [push_watched, push_watched]

theorem load_watched (register : Register) (v : Byte) :
    (p.watched ks past).load register v = (p.load register v).watched ks past :=
  congrArg (·.setNZ v) (setRegister_watched p ks past register v)

theorem shiftOut_watched (c : Change) (v : Byte) :
    (p.watched ks past).shiftOut c v = (p.shiftOut c v).watched ks past := by
  unfold shiftOut
  split
  · rfl
  · rfl

theorem addBinary_watched (v : Byte) :
    (p.watched ks past).addBinary v = (p.addBinary v).watched ks past := by
  unfold addBinary
  dsimp only
  rw [setRegister_watched]
  rfl

theorem setDecimal_watched (result : Byte) (carry : Bool) :
    (p.watched ks past).setDecimal result carry = (p.setDecimal result carry).watched ks past := by
  unfold setDecimal
  dsimp only
  rw [setRegister_watched]
  rfl

theorem add_watched (v : Byte) : (p.watched ks past).add v = (p.add v).watched ks past := by
  unfold add
  show (if p.flag .decimal then (p.watched ks past).addDecimal v else _) = _
  split
  · exact setDecimal_watched ..
  · exact addBinary_watched ..

theorem subtract_watched (v : Byte) :
    (p.watched ks past).subtract v = (p.subtract v).watched ks past := by
  unfold subtract
  show (if p.flag .decimal then (p.watched ks past).subtractDecimal v else _) = _
  split
  · exact setDecimal_watched ..
  · exact addBinary_watched ..

theorem pushed_watched (returnAddress : Address) (brk : Bool) :
    (p.watched ks past).pushed returnAddress brk = (p.pushed returnAddress brk).watched ks past := by
  unfold pushed
  dsimp only
  rw [pushAddress_watched]
  exact congrArg (·.setFlag .interrupt true)
    (push_watched ((p.pushAddress returnAddress).setFlag .brk brk) ks past _)

theorem interruptTarget_watched (returnAddress : Address) (brk : Bool) (vector : Address) :
    (p.watched ks past).interruptTarget returnAddress brk vector =
      p.interruptTarget returnAddress brk vector := by
  unfold interruptTarget
  rw [pushed_watched]
  rfl

/-- **An interrupt** writes the command pointer once, behind everything else. -/
theorem enterInterrupt_watched (returnAddress : Address) (brk : Bool) (vector : Address) :
    ∃ r : Processor, ∀ ks past, (p.watched ks past).enterInterrupt returnAddress brk vector =
      (r.watched ks past).setPc (p.interruptTarget returnAddress brk vector) := by
  refine ⟨(p.pushed returnAddress brk).onBoard (·.note .debug fun _ =>
    p.interruptNote returnAddress brk vector), fun ks past => ?_⟩
  rw [enterInterrupt_eq, interruptNote, pushed_watched, note_watched, interruptTarget_watched]
  rfl

end Processor

end Atari
