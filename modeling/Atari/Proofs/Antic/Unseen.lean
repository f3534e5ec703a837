import Atari.Proofs.Antic.Program

/-!
# Boards that the coprocessor does not tell apart

The coprocessor reads memory, stores bytes and writes notes. Two boards with the same memory make no
difference to it, as long as stores and notes keep it so.

* `Antic.Unseen`: a relation of such boards; `Antic.Unseen.run`: what comes of a program on both;
* **`Antic.Unseen.scanLine`**: a scan line on both.
-/

namespace Atari

namespace Antic

/-- A relation of boards that neither the coprocessor nor a way to store tells apart. -/
structure Unseen (store : Store) (R : Board → Board → Prop) : Prop where
  memory {b c : Board} : R b c → c.memory = b.memory
  note {b c : Board} : R b c → ∀ level body, R (b.note level body) (c.note level body)
  store {b c : Board} : R b c → ∀ a v, R (store b a v) (store c a v)

namespace Unseen

variable {store : Store} {R : Board → Board → Prop} (h : Unseen store R) {b c : Board}

include h

theorem run {α : Type} (x : Program α) (r : R b c) :
    (x.run store c).1 = (x.run store b).1 ∧ R (x.run store b).2 (x.run store c).2 := by
  induction x generalizing b c with
  | done x => exact ⟨rfl, r⟩
  | look rest ih =>
    rw [Program.run, Program.run, h.memory r]
    exact ih b.memory r
  | note level body rest ih => exact ih (h.note r level body)
  | store a v rest ih => exact ih (h.store r a v)

/-- **A scan line does not tell the boards apart.** -/
theorem scanLine (antic : Antic) (r : R b c) :
    (antic.scanLine store c).1 = (antic.scanLine store b).1 ∧
      (antic.scanLine store c).2.1 = (antic.scanLine store b).2.1 ∧
      R (antic.scanLine store b).2.2 (antic.scanLine store c).2.2 := by
  obtain ⟨same, drawn⟩ := h.run (Program.scanLine antic) r
  simp only [Program.scanLine_eq]
  exact ⟨congrArg Prod.fst same, congrArg Prod.snd same, drawn⟩

end Unseen

end Antic

end Atari
