import Atari.Proofs.Antic.Unseen
import Atari.Proofs.Board.Storing

/-!
# What nobody on a board reads

Hooks write into the journal, the coprocessor and breakpoints leave notes in the log, and breakpoints ask
to stop. Nobody on the board reads any of it, and no hook asks to stop. So stores do the same to boards
that differ in such things alone.

* `Board.Indiscernible`: a relation of boards that look the same from the bus;
  **`Board.Indiscernible.store`**: a store keeps it;
* `Records`: what was written down; `Board.after`: a board with its records behind earlier ones;
* **`Board.store_after`**: a store does not see what was written down before, and asks nobody to stop;
  `Board.Told.storeList`: nor do several.
-/

namespace Atari

namespace Board

/-! ## Boards that look the same -/

/-- A relation of boards that look the same to all who are on the bus, and that everything there keeps. -/
structure Indiscernible (R : Board → Board → Prop) : Prop where
  same {b c : Board} : R b c → b.SameBus c
  note {b c : Board} : R b c → ∀ level body, R (b.note level body) (c.note level body)
  record {b c : Board} : R b c → ∀ e, R (b.record e) (c.record e)
  memory {b c : Board} : R b c → ∀ m, R { b with memory := m } { c with memory := m }
  hooks {b c : Board} : R b c → ∀ h, R { b with hooks := h } { c with hooks := h }
  displays {b c : Board} : R b c → ∀ ds, R { b with displays := ds } { c with displays := ds }
  overrun {b c : Board} : R b c → R { b with overrun := true } { c with overrun := true }

namespace Indiscernible

variable {R : Board → Board → Prop} (h : Indiscernible R) {b c : Board}

include h

theorem setByte (r : R b c) (a : Address) (v : Byte) : R (b.setByte a v) (c.setByte a v) := by
  have stored := h.memory r (b.memory.set a v)
  unfold Board.setByte
  rwa [(h.same r).memory]

theorem lend (r : R b c) (i : Nat) : R (b.lend i) (c.lend i) := by
  have away := h.displays r (b.displays.setIfInBounds i none)
  unfold Board.lend
  rwa [(h.same r).displays]

theorem giveBack (r : R b c) (i : Nat) (d : Display) : R (b.giveBack i d) (c.giveBack i d) := by
  have back := h.displays r (b.displays.setIfInBounds i (some d))
  unfold Board.giveBack
  rwa [(h.same r).displays]

section Stores

variable {store : Store} (hs : ∀ {b c}, R b c → ∀ a v, R (store b a v) (store c a v))

include hs

omit h in
theorem storeAll (r : R b c) (a : Address) (data : List Byte) :
    R (storeAll store b a data) (storeAll store c a data) := by
  induction data generalizing b c a with
  | nil => exact r
  | cons v data ih => exact ih (hs r a v) (a + 1)

theorem script (s : Script) (r : R b c) : R (s.run store b) (s.run store c) := by
  induction s generalizing b c with
  | stop => exact r
  | peek a rest ih =>
    have same : c.peek a = b.peek a := by rw [peek, peek, (h.same r).memory]
    rw [Script.run, Script.run, same]
    exact ih _ r
  | poke a data rest ih =>
    unfold Script.run pokeWith
    by_cases inside : a.toNat + data.length ≤ Memory.size
    · simp only [if_pos inside]
      exact ih _ (storeAll hs r a data)
    · simp only [if_neg inside]
      exact ih _ r
  | count a rest ih =>
    rw [Script.run, Script.run, (h.same r).hooks]
    exact ih _ r
  | clear a rest ih =>
    rw [Script.run, Script.run, (h.same r).hooks]
    exact ih _ (h.hooks r _)
  | attach a hook rest _ ih =>
    rw [Script.run, Script.run, (h.same r).hooks]
    exact ih (h.hooks r _)
  | report e rest ih => exact ih (h.record r e)

theorem unseen : Antic.Unseen store R := ⟨fun r => (h.same r).memory, h.note, hs⟩

theorem call (hook : Hook) (a : Address) (v : Byte) (r : R b c) :
    R (hook.call store a v b) (hook.call store a v c) := by
  cases hook with
  | script run => exact h.script hs (run a v) r
  | waitSync i =>
    have shown : c.display? i = b.display? i := by rw [display?, display?, (h.same r).displays]
    cases hd : b.display? i with
    | none =>
      rw [call_waitSync_away store hd, call_waitSync_away store (shown.trans hd)]
      exact h.note r ..
    | some d =>
      rw [call_waitSync store hd, call_waitSync store (shown.trans hd)]
      obtain ⟨line, antic, drawn⟩ := (h.unseen hs).scanLine d.antic (h.lend r i)
      unfold Display.scanLine
      dsimp only
      rw [line, antic]
      exact h.giveBack drawn i _

theorem called (a : Address) (v : Byte) (r : R b c) : R (b.called store a v) (c.called store a v) := by
  have calls (hooks : List Hook) {b c : Board} (r : R b c) :
      R (hooks.foldl (fun b hook => hook.call store a v b) b)
        (hooks.foldl (fun b hook => hook.call store a v b) c) := by
    induction hooks generalizing b c with
    | nil => exact r
    | cons hook hooks ih => exact ih (h.call hs hook a v r)
  have run := calls (b.hooks.on a) (h.hooks r (b.hooks.detach a))
  unfold Board.called
  dsimp only
  rw [(h.same r).hooks, (h.same run).hooks]
  exact h.hooks run _

end Stores

theorem storeWithin (depth : Nat) (r : R b c) (a : Address) (v : Byte) :
    R (storeWithin depth b a v) (storeWithin depth c a v) := by
  have hooks : c.hooks.on a = b.hooks.on a := by rw [(h.same r).hooks]
  -- The hooks of the address store at a smaller depth.
  induction depth generalizing b c a v with
  | zero =>
    by_cases on : b.hooks.on a = []
    · rw [storeWithin_of_on_eq_nil on, storeWithin_of_on_eq_nil (hooks.trans on)]
      exact h.setByte r a v
    · rw [storeWithin_zero_of_on_ne_nil on, storeWithin_zero_of_on_ne_nil (hooks ▸ on)]
      exact h.overrun (h.setByte r a v)
  | succ depth ih =>
    by_cases on : b.hooks.on a = []
    · rw [storeWithin_of_on_eq_nil on, storeWithin_of_on_eq_nil (hooks.trans on)]
      exact h.setByte r a v
    · rw [storeWithin_of_on_ne_nil on, storeWithin_of_on_ne_nil (hooks ▸ on)]
      exact h.called (fun r a v => ih r a v (by rw [(h.same r).hooks])) a v (h.setByte r a v)

/-- **A store does not tell boards apart that look the same from the bus.** -/
theorem store (r : R b c) (a : Address) (v : Byte) : R (b.store a v) (c.store a v) :=
  h.storeWithin nesting r a v

end Indiscernible

theorem indiscernible_sameBus : Indiscernible SameBus where
  same r := r
  note r level body := by
    constructor <;> simp [r.memory, r.hooks, r.displays]
  record r e := ⟨r.memory, r.hooks, r.displays⟩
  memory r m := ⟨rfl, r.hooks, r.displays⟩
  hooks r h := ⟨r.memory, rfl, r.displays⟩
  displays r ds := ⟨r.memory, r.hooks, rfl⟩
  overrun r := ⟨r.memory, r.hooks, r.displays⟩

end Board

/-! ## Records -/

/-- What was written down on a board: the journal, the log and the request to stop. -/
structure Records where
  journal : List Event := []
  log : List LogRecord := []
  stop : Option Address := none
  deriving DecidableEq, Repr

namespace Board

/-- What was written down on a board. -/
def records (b : Board) : Records := ⟨b.journal, b.log, b.stop⟩

/-- The board with its records behind earlier ones, and with the request to stop that those hold. -/
def after (past : Records) (b : Board) : Board :=
  { b with
    journal := b.journal ++ past.journal
    log := b.log ++ past.log
    stop := past.stop }

def blank (b : Board) : Board := { b with journal := [], log := [], stop := none }

variable {past : Records}

theorem note_after (b : Board) (level : Level) (body : Unit → String) :
    (b.after past).note level body = (b.note level body).after past := by
  obtain ⟨memory, hooks, displays, journal, log, verbosity, stop, overrun⟩ := b
  unfold note
  dsimp only [after]
  split
  · split
    · rfl
    · rfl
  · rfl

theorem indiscernible_after : Indiscernible fun b c => c = b.after past where
  same r := r ▸ ⟨rfl, rfl, rfl⟩
  note r _ _ := r ▸ note_after ..
  record r _ := r ▸ rfl
  memory r _ := r ▸ rfl
  hooks r _ := r ▸ rfl
  displays r _ := r ▸ rfl
  overrun r := r ▸ rfl

/-- **A store does not see what was written down before.** -/
theorem store_after (b : Board) (a : Address) (v : Byte) :
    (b.after past).store a v = (b.store a v).after past := indiscernible_after.store rfl a v

theorem Told.store {b c : Board} (h : b.Told c) (a : Address) (v : Byte) :
    (b.store a v).Told (c.store a v) := by
  obtain ⟨journal, log, rfl⟩ := h
  -- Both boards are the blank one with something written down before.
  show ((b.blank.after b.records).store a v).Told ((b.blank.after ⟨journal, log, b.stop⟩).store a v)
  rw [store_after, store_after]
  exact ⟨_, _, rfl⟩

theorem Told.storeList {b c : Board} (h : b.Told c) (writes : List (Address × Byte)) :
    (b.storeList writes).Told (c.storeList writes) := by
  induction writes generalizing b c with
  | nil => exact h
  | cons w writes ih => exact ih (h.store w.1 w.2)

end Board

end Atari
