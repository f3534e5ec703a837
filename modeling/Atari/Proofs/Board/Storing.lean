import Atari.Board.Store

/-!
# What storing does to a board

* `Board.note`, `Board.record` and `Board.setByte` change one part of a board;
* `Board.Told`: boards that differ in what was written down alone; `Board.SameBus`: boards with the same
  memory, hooks and displays;
* **`Board.storeWithin_of_on_eq_nil`**: without hooks on an address, a store changes its byte alone;
* `Board.called`: the calls of the hooks of an address; **`Board.storeWithin_of_on_ne_nil`**: with hooks
  on an address, a store calls them;
* `Board.storeList`: bytes stored one after the other, each with its own address.
-/

namespace Atari

namespace Board

variable (b : Board)

/-! ## Logs, journals and bytes -/

section Fields

variable (level : Level) (body : Unit → String)

theorem note_eq : ∃ log, b.note level body = { b with log := log } := by
  unfold note
  split
  · split
    · exact ⟨_, rfl⟩
    · exact ⟨b.log, rfl⟩
  · exact ⟨b.log, rfl⟩

@[simp] theorem note_memory : (b.note level body).memory = b.memory := by
  obtain ⟨log, h⟩ := b.note_eq level body
  rw [h]

@[simp] theorem note_hooks : (b.note level body).hooks = b.hooks := by
  obtain ⟨log, h⟩ := b.note_eq level body
  rw [h]

@[simp] theorem note_displays : (b.note level body).displays = b.displays := by
  obtain ⟨log, h⟩ := b.note_eq level body
  rw [h]

@[simp] theorem note_journal : (b.note level body).journal = b.journal := by
  obtain ⟨log, h⟩ := b.note_eq level body
  rw [h]

@[simp] theorem note_verbosity : (b.note level body).verbosity = b.verbosity := by
  obtain ⟨log, h⟩ := b.note_eq level body
  rw [h]

@[simp] theorem note_stop : (b.note level body).stop = b.stop := by
  obtain ⟨log, h⟩ := b.note_eq level body
  rw [h]

@[simp] theorem note_overrun : (b.note level body).overrun = b.overrun := by
  obtain ⟨log, h⟩ := b.note_eq level body
  rw [h]

@[simp] theorem note_peek (a : Address) : (b.note level body).peek a = b.peek a := by
  simp only [peek, note_memory]

end Fields

@[simp] theorem setByte_hooks (a : Address) (v : Byte) : (b.setByte a v).hooks = b.hooks := rfl

theorem peek_setByte (a c : Address) (v : Byte) :
    (b.setByte a v).peek c = if a = c then v else b.peek c := Memory.peek_set ..

/-- Boards that differ in their journal and their log alone. -/
def Told (b c : Board) : Prop :=
  ∃ journal log, c = { b with journal := journal, log := log }

namespace Told

variable {b c e : Board}

theorem refl (b : Board) : Told b b := ⟨b.journal, b.log, rfl⟩

theorem trans (h : Told b c) (k : Told c e) : Told b e := by
  obtain ⟨_, _, rfl⟩ := h
  obtain ⟨journal, log, rfl⟩ := k
  exact ⟨journal, log, rfl⟩

theorem note (b : Board) (level : Level) (body : Unit → String) : Told b (b.note level body) := by
  obtain ⟨log, h⟩ := b.note_eq level body
  exact ⟨b.journal, log, h⟩

theorem record (b : Board) (e : Event) : Told b (b.record e) := ⟨e :: b.journal, b.log, rfl⟩

end Told

/-- Boards with the same memory, the same hooks and the same displays. -/
structure SameBus (b c : Board) : Prop where
  memory : c.memory = b.memory
  hooks : c.hooks = b.hooks
  displays : c.displays = b.displays

theorem SameBus.refl (b : Board) : b.SameBus b := ⟨rfl, rfl, rfl⟩

theorem SameBus.trans {b c e : Board} (h : b.SameBus c) (k : c.SameBus e) : b.SameBus e :=
  ⟨k.memory.trans h.memory, k.hooks.trans h.hooks, k.displays.trans h.displays⟩

theorem SameBus.symm {b c : Board} (h : b.SameBus c) : c.SameBus b :=
  ⟨h.memory.symm, h.hooks.symm, h.displays.symm⟩

theorem Told.sameBus {b c : Board} (h : b.Told c) : b.SameBus c := by
  obtain ⟨journal, log, rfl⟩ := h
  exact ⟨rfl, rfl, rfl⟩

/-! ## Stores -/

variable {b} in
/-- **Without hooks on an address, a store changes the byte there and nothing else.** -/
theorem storeWithin_of_on_eq_nil {a : Address} (h : b.hooks.on a = []) (depth : Nat) (v : Byte) :
    storeWithin depth b a v = b.setByte a v := by
  rw [storeWithin.eq_def]
  simp only [setByte_hooks, h]

variable {b} in
theorem store_of_on_eq_nil {a : Address} (h : b.hooks.on a = []) (v : Byte) :
    b.store a v = b.setByte a v := storeWithin_of_on_eq_nil h nesting v

/-- The board behind the calls of the hooks of an address, which are detached meanwhile. -/
def called (store : Store) (b : Board) (a : Address) (v : Byte) : Board :=
  let c := (b.hooks.on a).foldl (fun b hook => hook.call store a v b)
    { b with hooks := b.hooks.detach a }
  { c with hooks := c.hooks.restore a (b.hooks.on a) }

variable {b} in
/-- **With hooks on an address, a store calls them behind the byte.** -/
theorem storeWithin_of_on_ne_nil {a : Address} (h : b.hooks.on a ≠ []) (depth : Nat) (v : Byte) :
    storeWithin (depth + 1) b a v = (b.setByte a v).called (storeWithin depth) a v := by
  rw [storeWithin.eq_def]
  simp only [setByte_hooks]
  rfl

variable {b} in
theorem storeWithin_zero_of_on_ne_nil {a : Address} (h : b.hooks.on a ≠ []) (v : Byte) :
    storeWithin 0 b a v = { b.setByte a v with overrun := true } := by
  rw [storeWithin.eq_def]
  simp only [setByte_hooks]

/-! ## The hook of a display -/

section Display

variable {b} {store : Store} {i : Nat} {d : Display}

theorem withDisplay_scanLine (h : b.display? i = some d) :
    b.withDisplay i (Display.scanLine store) =
      some ((d.scanLine store (b.lend i)).1,
        (d.scanLine store (b.lend i)).2.2.giveBack i (d.scanLine store (b.lend i)).2.1) := by
  unfold withDisplay
  rw [h]

variable (store) in
theorem call_waitSync (h : b.display? i = some d) (a : Address) (v : Byte) :
    (Hook.waitSync i).call store a v b =
      (d.scanLine store (b.lend i)).2.2.giveBack i (d.scanLine store (b.lend i)).2.1 := by
  unfold Hook.call
  dsimp only
  rw [withDisplay_scanLine h]

variable (store) in
theorem call_waitSync_away (h : b.display? i = none) (a : Address) (v : Byte) :
    (Hook.waitSync i).call store a v b =
      b.note .warn fun _ => "ANTIC: WSYNC written while rendering, ignored" := by
  unfold Hook.call withDisplay
  dsimp only
  rw [h]

end Display

/-! ## Lists of stores -/

/-- Bytes stored one after the other, each at its own address. -/
def storeList (b : Board) (writes : List (Address × Byte)) : Board :=
  writes.foldl (fun b w => b.store w.1 w.2) b

@[simp] theorem storeList_nil : b.storeList [] = b := rfl

@[simp] theorem storeList_cons (w : Address × Byte) (writes : List (Address × Byte)) :
    b.storeList (w :: writes) = (b.store w.1 w.2).storeList writes := rfl

end Board

end Atari
