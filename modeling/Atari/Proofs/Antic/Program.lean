import Atari.Antic.Scan

/-!
# The coprocessor as a program

Whatever the coprocessor does to the board are three things: it reads memory, leaves notes and stores
bytes. A scan line written as a program of these can be followed one store after the other, where the
scan line itself tells its end alone.

* `Program`: what the coprocessor does, and what it makes of it; `Program.run`: what comes of it;
* `Program.scanLine`: a scan line as a program;
* **`Program.run_scanLine`**: it is the scan line;
* `Program.Does`: where a program stores, and what its result is like.
-/

namespace Atari

/-- What is done to a board, one thing after the other, and what is made of it. -/
inductive Program (α : Type)
  | done (x : α)
  /-- Reads memory. -/
  | look (rest : Memory → Program α)
  /-- Writes into the log. -/
  | note (level : Level) (body : Unit → String) (rest : Program α)
  /-- Stores a byte. -/
  | store (a : Address) (v : Byte) (rest : Program α)

namespace Program

variable {α β : Type}

/-- Does what a program says. -/
def run (store : Store) : Program α → Board → α × Board
  | done x, b => (x, b)
  | look rest, b => (rest b.memory).run store b
  | note level body rest, b => rest.run store (b.note level body)
  | .store a v rest, b => rest.run store (store b a v)

/-- A program and then one for its result. -/
def bind : Program α → (α → Program β) → Program β
  | done x, f => f x
  | look rest, f => look fun m => (rest m).bind f
  | note level body rest, f => note level body (rest.bind f)
  | .store a v rest, f => .store a v (rest.bind f)

instance : Monad Program where
  pure := done
  bind := bind

/-! ## The parts of a scan line -/

def memory : Program Memory := look done

def tell (level : Level) (body : Unit → String) : Program Unit := note level body (done ())

/-- Stores bytes one after the other. -/
def stores : List (Address × Byte) → Program Unit
  | [] => done ()
  | w :: writes => .store w.1 w.2 (stores writes)

def apply (s : VideoSetting) : Program Unit := stores s.stores

/-- The end of a frame. -/
def verticalSync (antic : Antic) : Program Antic := do
  tell .debug fun _ => "ANTIC: vertical sync after " ++ toString antic.line ++ " scan lines"
  let antic := { antic with line := 0, frames := antic.frames + 1, scrollRegion := false }
  apply (.vcount 0)
  let m ← memory
  if Video.verticalBlankInterrupts m then
    apply (.nmist (m.peek Control.nmist ||| 0x40))
    return { antic with request := some .verticalBlank }
  else return antic

/-- One instruction of the display list. -/
def step (antic : Antic) : Program (DisplayInstruction × Antic) := do
  let m ← memory
  let cursor := Video.displayList m
  let i := DisplayInstruction.decode m cursor
  tell .debug fun _ => "ANTIC: " ++ cursor.text ++ " " ++ i.text
  let behind := cursor + UInt16.ofNat i.length
  match i with
  | .blank lines _ =>
    apply (.displayList behind)
    return (i, { antic.start i lines 0 with scrollRegion := false })
  | .jump target verticalBlank _ =>
    apply (.displayList target)
    if verticalBlank then
      let antic ← verticalSync { antic with current := some i, remaining := 0 }
      return (i, antic)
    else return (i, antic.start i 1 0)
  | .modeLine mode scan scrolls _ _ =>
    apply (.displayList behind)
    let antic := match scan with
      | some a => { antic with memoryScan := a }
      | none => antic
    let m ← memory
    let (first, last) := Antic.rows mode.height (Video.vscrol m).toNat antic.scrollRegion scrolls
    return (i, { antic.start i (last - first + 1) first with scrollRegion := scrolls })

/-- The count of scan lines. -/
def count (antic : Antic) : Program Antic := do
  let antic := { antic with line := antic.line + 1 }
  apply (.vcount (UInt8.ofNat (antic.line / 2)))
  return antic

/-- The end of a scan line. -/
def endLine (antic : Antic) : Program Antic := do
  let antic ← count antic
  let antic := { antic with remaining := antic.remaining - 1, row := antic.row + 1 }
  if antic.remaining > 0 then return antic
  else
    let m ← memory
    let antic := antic.advance m
    if antic.current.any (·.interrupt) ∧ Video.displayListInterrupts m then
      tell .debug fun _ => "ANTIC: display list interrupt on scan line " ++ toString antic.line
      let m ← memory
      apply (.nmist (m.peek Control.nmist ||| 0x80))
      return { antic with request := some .displayList }
    else return antic

/-- A scan line without a display list. -/
def freeLine (antic : Antic) : Program (ScanLine × Antic) := do
  if antic.line + 1 ≥ Antic.linesPerFrame then
    let antic ← verticalSync antic
    return (.verticalSync, antic)
  else
    let antic ← count antic
    return (.picture [], antic)

/-- The scan line of the instruction under way. -/
def listLine (antic : Antic) : Program (ScanLine × Antic) := do
  let m ← memory
  let ended ← endLine antic
  return (.picture (antic.pixels m), ended)

/-- A scan line. -/
def scanLine (antic : Antic) : Program (ScanLine × Antic) := do
  let m ← memory
  if Video.displayListDma m then
    if antic.remaining = 0 then
      let (i, antic) ← step antic
      if i.endsFrame then return (.verticalSync, antic) else listLine antic
    else listLine antic
  else freeLine antic

/-! ## What comes of them -/

section Run

variable (store : Store) (b : Board)

@[simp] theorem run_pure (x : α) : (pure x : Program α).run store b = (x, b) := rfl

@[simp] theorem run_bind (x : Program α) (f : α → Program β) :
    (x >>= f).run store b = (f (x.run store b).1).run store (x.run store b).2 := by
  show (x.bind f).run store b = _
  induction x generalizing b with
  | done x => rfl
  | look rest ih => exact ih b.memory b
  | note level body rest ih => exact ih (b.note level body)
  | store a v rest ih => exact ih (store b a v)

@[simp] theorem run_memory : memory.run store b = (b.memory, b) := rfl

@[simp] theorem run_tell (level : Level) (body : Unit → String) :
    (tell level body).run store b = ((), b.note level body) := rfl

@[simp] theorem run_apply (s : VideoSetting) : (apply s).run store b = ((), b.apply store s) := by
  unfold apply Board.apply
  generalize s.stores = writes
  induction writes generalizing b with
  | nil => rfl
  | cons w writes ih => exact ih (store b w.1 w.2)

@[simp] theorem run_verticalSync (antic : Antic) :
    (verticalSync antic).run store b = antic.verticalSync store b := by
  unfold verticalSync Antic.verticalSync
  simp only [run_bind, run_tell, run_apply]
  rw [run_memory]
  split
  · simp only [run_bind, run_apply, run_pure]
    rfl
  · rfl

@[simp] theorem run_step (antic : Antic) : (step antic).run store b =
    (((antic.step store b).1, (antic.step store b).2.1), (antic.step store b).2.2) := by
  unfold step Antic.step
  simp only [run_bind, run_tell]
  rw [run_memory]
  dsimp only
  generalize DisplayInstruction.decode b.memory (Video.displayList b.memory) = i
  cases i with
  | blank lines interrupt => simp only [run_bind, run_apply, run_pure]
  | jump target verticalBlank interrupt =>
    dsimp only
    split
    · simp only [run_bind, run_apply, run_verticalSync, run_pure]
    · simp only [run_bind, run_apply, run_pure]
  | modeLine mode scan scrolls horizontal interrupt =>
    simp only [run_bind, run_apply, run_memory]
    rfl

@[simp] theorem run_count (antic : Antic) : (count antic).run store b = antic.count store b := by
  unfold count Antic.count
  simp only [run_bind, run_apply, run_pure]

@[simp] theorem run_endLine (antic : Antic) : (endLine antic).run store b = antic.endLine store b := by
  unfold endLine Antic.endLine
  simp only [run_bind, run_count]
  split
  · rfl
  · simp only [run_bind]
    rw [run_memory]
    split
    · simp only [run_bind, run_tell, run_memory, run_apply, run_pure]
      rfl
    · rfl

@[simp] theorem run_freeLine (antic : Antic) : (freeLine antic).run store b =
    (((antic.freeLine store b).1, (antic.freeLine store b).2.1), (antic.freeLine store b).2.2) := by
  unfold freeLine Antic.freeLine
  split
  · simp only [run_bind, run_verticalSync, run_pure]
  · simp only [run_bind, run_count, run_pure]

@[simp] theorem run_listLine (antic : Antic) : (listLine antic).run store b =
    (((antic.listLine store b).1, (antic.listLine store b).2.1), (antic.listLine store b).2.2) := by
  unfold listLine Antic.listLine
  simp only [run_bind, run_memory, run_endLine, run_pure]

/-- **A scan line is what its program says.** -/
theorem run_scanLine (antic : Antic) : (scanLine antic).run store b =
    (((antic.scanLine store b).1, (antic.scanLine store b).2.1), (antic.scanLine store b).2.2) := by
  unfold scanLine Antic.scanLine
  rw [run_bind, run_memory]
  dsimp only
  split
  · split
    · simp only [run_bind, run_step]
      split
      · rfl
      · exact run_listLine ..
    · exact run_listLine ..
  · exact run_freeLine ..

theorem scanLine_eq (antic : Antic) : antic.scanLine store b =
    (((scanLine antic).run store b).1.1, ((scanLine antic).run store b).1.2,
      ((scanLine antic).run store b).2) := by
  rw [run_scanLine]

end Run

/-! ## What they do -/

variable {allowed : Address → Prop} {P : α → Prop} {Q : β → Prop} {x : Program α}

/-- A program that stores at some addresses alone, and whose result is like this, whatever is in memory. -/
def Does (allowed : Address → Prop) (P : α → Prop) : Program α → Prop
  | done x => P x
  | look rest => ∀ m, (rest m).Does allowed P
  | note _ _ rest => rest.Does allowed P
  | .store a _ rest => allowed a ∧ rest.Does allowed P

theorem Does.bind {f : α → Program β} (h : x.Does allowed P) (k : ∀ y, P y → (f y).Does allowed Q) :
    (x >>= f).Does allowed Q := by
  show (x.bind f).Does allowed Q
  induction x with
  | done x => exact k x h
  | look rest ih => exact fun m => ih m (h m)
  | note level body rest ih => exact ih h
  | store a v rest ih => exact ⟨h.1, ih h.2⟩

theorem Does.look {f : Memory → Program β} (k : ∀ m, (f m).Does allowed Q) :
    (memory >>= f).Does allowed Q := k

theorem Does.tell {f : Unit → Program β} (level : Level) (body : Unit → String)
    (k : (f ()).Does allowed Q) : (tell level body >>= f).Does allowed Q := k

theorem Does.apply {f : Unit → Program β} {s : VideoSetting} (h : ∀ w ∈ s.stores, allowed w.1)
    (k : (f ()).Does allowed Q) : (apply s >>= f).Does allowed Q := by
  unfold Program.apply
  generalize s.stores = writes at h
  induction writes with
  | nil => exact k
  | cons w writes ih =>
    exact ⟨h w List.mem_cons_self, ih fun w' hw' => h w' (List.mem_cons_of_mem _ hw')⟩

theorem Does.result (h : x.Does allowed P) (store : Store) (b : Board) : P (x.run store b).1 := by
  induction x generalizing b with
  | done x => exact h
  | look rest ih => exact ih b.memory (h b.memory) b
  | note level body rest ih => exact ih h (b.note level body)
  | store a v rest ih => exact ih h.2 (store b a v)

end Program

end Atari
