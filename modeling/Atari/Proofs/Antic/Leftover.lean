import Atari.Proofs.Antic.Repeat

/-!
# Lines left behind a frame

A vertical sync ends a frame, and the next scan line of a display list should begin with the instruction at
the cursor. It does so behind a jump that ends the frame, which leaves no line. Without a display list a
frame ends when it has its lines, and what is left then of the instruction under way is drawn in the next
frame.

* `Antic.Beat`: one thing that the coprocessor does; `Antic.Call`: what is asked of it; `Display.beats`: all
  that it does then;
* `Antic.Chain`: beats that follow each other; **`Antic.Chain.idle`**: what is left behind beats that decode
  nothing;
* `Antic.Beat.leftover`: the lines that a vertical sync leaves;
* `Antic.Resumes`: the first scan line of a display list behind a vertical sync; `Antic.Afresh`: that each of
  them decodes; `Antic.Stale`: a scan line of an instruction from before a vertical sync;
* **`Display.afresh_iff`**: when frames begin afresh; `Display.not_afresh_characters`: a run where they do
  not.
-/

namespace Atari

namespace Antic

/-! ## Beats -/

/-- A scan line, or an instruction that is decoded by itself, with the state and the board before it. -/
inductive Beat
  | line (store : Store) (antic : Antic) (b : Board)
  | step (store : Store) (antic : Antic) (b : Board)

namespace Beat

def before : Beat → Antic
  | line _ antic _ | step _ antic _ => antic

def after : Beat → Antic
  | line store antic b => (antic.scanLine store b).2.1
  | step store antic b => (antic.step store b).2.1

def atCursor : Beat → DisplayInstruction
  | line _ _ b | step _ _ b => .decode b.memory (Video.displayList b.memory)

/-- Whether a beat is a scan line with a display list. -/
def lists : Beat → Bool
  | line _ _ b => Video.displayListDma b.memory
  | step _ _ _ => false

/-- Whether a beat begins by decoding the instruction at the cursor. -/
def decodes : Beat → Bool
  | line _ antic b => Video.displayListDma b.memory && antic.remaining == 0
  | step _ _ _ => true

/-- Whether a beat raises the vertical sync. -/
def Syncs : Beat → Prop
  | line _ antic b => antic.Syncs b.memory
  | step _ _ b => (DisplayInstruction.decode b.memory (Video.displayList b.memory)).endsFrame

/-- The lines that a beat leaves which raises the vertical sync: none if the display list ends the frame,
and otherwise all that were left before. -/
def leftover : Beat → Nat
  | line _ antic b => if Video.displayListDma b.memory then 0 else antic.remaining
  | step _ _ _ => 0

variable {t : Beat}

theorem decodes_iff (lists : t.lists = true) : t.decodes = true ↔ t.before.remaining = 0 := by
  cases t with
  | step store antic b => cases lists
  | line store antic b =>
    have dma : Video.displayListDma b.memory = true := lists
    simp [decodes, before, dma]

theorem current_of_decodes (h : t.decodes = true) : t.after.current = some t.atCursor := by
  cases t with
  | step store antic b => exact (current_step ..).trans (congrArg some (step_fst ..))
  | line store antic b =>
    obtain ⟨dma, none⟩ : Video.displayListDma b.memory = true ∧ antic.remaining = 0 := by
      simpa [decodes] using h
    have drawn : (antic.drawing store b).1.current = some (.decode b.memory (Video.displayList b.memory)) := by
      rw [drawing, if_pos none, current_step, step_fst]
    show (antic.scanLine store b).2.1.current = _
    by_cases syncs : antic.Syncs b.memory
    · rw [scanLine_of_dma_of_syncs store dma syncs]
      exact drawn
    · rw [scanLine_of_dma store dma syncs]
      exact (current_endLine ..).trans drawn

/-- A beat that does not decode goes on with the instruction under way, and draws a line of it if there is a
display list. -/
theorem after_of_not_decodes (h : t.decodes = false) : t.after.current = t.before.current ∧
    t.after.remaining = t.before.remaining - if t.lists then 1 else 0 := by
  cases t with
  | step store antic b => cases h
  | line store antic b =>
    show (antic.scanLine store b).2.1.current = antic.current ∧
      (antic.scanLine store b).2.1.remaining =
        antic.remaining - if Video.displayListDma b.memory then 1 else 0
    by_cases dma : Video.displayListDma b.memory = true
    · have some : antic.remaining ≠ 0 := by simpa [decodes, dma] using h
      rw [scanLine, if_pos dma, if_neg some, if_pos dma]
      exact ⟨current_endLine .., remaining_endLine ..⟩
    · rw [scanLine, if_neg dma, if_neg dma, freeLine]
      split
      · exact ⟨current_verticalSync .., remaining_verticalSync ..⟩
      · exact ⟨rfl, rfl⟩

/-- **The lines left behind a vertical sync.** -/
theorem remaining_of_syncs (h : t.Syncs) : t.after.remaining = t.leftover := by
  cases t with
  | step store antic b => exact remaining_step _ _ _ ((step_fst ..).symm ▸ h)
  | line store antic b =>
    show (antic.scanLine store b).2.1.remaining = if Video.displayListDma b.memory then 0 else antic.remaining
    by_cases dma : Video.displayListDma b.memory = true
    · have syncs : antic.Syncs b.memory := h
      rw [scanLine_of_dma_of_syncs store dma syncs, if_pos dma]
      unfold Antic.Syncs at syncs
      rw [if_pos dma, ← step_fst store antic b] at syncs
      show (antic.drawing store b).1.remaining = 0
      rw [drawing, if_pos syncs.1]
      exact remaining_step _ _ _ syncs.2
    · have idle : decodes (line store antic b) = false := by simp [decodes, dma]
      have left := (after_of_not_decodes idle).2
      rw [show lists (line store antic b) = false from Bool.eq_false_iff.mpr dma] at left
      rw [if_neg dma]
      exact left

end Beat

/-! ## Chains -/

section Chains

/-- Beats that follow each other, each in the state that the one before has left. -/
def Chain (first : Antic) : List Beat → (last : Antic) → Prop
  | [], last => last = first
  | t :: beats, last => t.before = first ∧ Chain t.after beats last

variable {first last : Antic} {beats vs : List Beat} {s t : Beat}

theorem chain_append {xs ys : List Beat} :
    Chain first (xs ++ ys) last ↔ ∃ middle, Chain first xs middle ∧ Chain middle ys last := by
  induction xs generalizing first with
  | nil => simp [Chain]
  | cons t xs ih => simp [Chain, ih, and_assoc]

theorem chain_moments (store : Store) (n : Nat) (antic : Antic) (b : Board) :
    Chain antic ((moments store n antic b).map fun x => .line store x.1 x.2)
      (antic.linesUpTo store n b).2.1 := by
  induction n generalizing antic b with
  | zero => rfl
  | succ n ih =>
    rw [moments, linesUpTo]
    dsimp only
    by_cases syncs : (antic.scanLine store b).1 = .verticalSync
    · rw [if_pos syncs, if_pos syncs]
      exact ⟨rfl, rfl⟩
    · rw [if_neg syncs, if_neg syncs]
      exact ⟨rfl, ih ..⟩

/-- **Beats that decode nothing** keep the instruction under way, and draw a line of it with each scan line of
a display list. -/
theorem Chain.idle (h : Chain first vs last) (idle : ∀ v ∈ vs, v.decodes = false) :
    last.current = first.current ∧ last.remaining = first.remaining - vs.countP (·.lists) := by
  induction vs generalizing first with
  | nil =>
    obtain rfl : last = first := h
    exact ⟨rfl, rfl⟩
  | cons v vs ih =>
    obtain ⟨rfl, chain⟩ := h
    obtain ⟨current, remaining⟩ := Beat.after_of_not_decodes (idle v (.head _))
    obtain ⟨later, left⟩ := ih chain fun w hw => idle w (.tail _ hw)
    refine ⟨later.trans current, ?_⟩
    rw [left, remaining, List.countP_cons, Nat.sub_sub, Nat.add_comm]

/-! ## Behind a vertical sync -/

/-- The scan line `t` is the first with a display list behind the vertical sync that `s` raises, and nothing
was decoded between them. -/
def Resumes (beats : List Beat) (s t : Beat) : Prop :=
  ∃ us vs ws, beats = us ++ s :: (vs ++ t :: ws) ∧ s.Syncs ∧ t.lists = true ∧
    ∀ v ∈ vs, v.lists = false ∧ v.decodes = false

/-- Behind every vertical sync the first scan line of a display list decodes. -/
def Afresh (beats : List Beat) : Prop := ∀ s t, Resumes beats s t → t.decodes = true

/-- A scan line draws an instruction that was decoded before a vertical sync. -/
def Stale (beats : List Beat) (t : Beat) : Prop :=
  ∃ us s vs ws, beats = us ++ s :: (vs ++ t :: ws) ∧ s.Syncs ∧ t.lists = true ∧
    (∀ v ∈ vs, v.decodes = false) ∧ t.decodes = false

/-- With nothing decoded since a vertical sync, a scan line decodes when what the sync has left is drawn, and
draws it before. -/
theorem Chain.decodes_iff {us ws : List Beat} (chain : Chain first (us ++ s :: (vs ++ t :: ws)) last)
    (syncs : s.Syncs) (lists : t.lists = true) (idle : ∀ v ∈ vs, v.decodes = false) :
    (t.decodes = true ↔ s.leftover ≤ vs.countP (·.lists)) ∧ t.before.current = s.after.current := by
  obtain ⟨-, -, -, chain⟩ := chain_append.mp chain
  obtain ⟨_, between, rfl, -⟩ := chain_append.mp chain
  obtain ⟨current, remaining⟩ := between.idle idle
  refine ⟨?_, current⟩
  rw [Beat.decodes_iff lists, remaining, Beat.remaining_of_syncs syncs, Nat.sub_eq_zero_iff_le]

theorem Chain.afresh_iff_leftover (chain : Chain first beats last) :
    Afresh beats ↔ ∀ s t, Resumes beats s t → s.leftover = 0 := by
  refine forall₃_congr fun s t resumes => ?_
  obtain ⟨us, vs, ws, rfl, syncs, lists, idle⟩ := resumes
  have dark : vs.countP (·.lists) = 0 := List.countP_eq_zero.mpr fun v hv => by simp [(idle v hv).1]
  rw [(chain.decodes_iff syncs lists fun v hv => (idle v hv).2).1, dark, Nat.le_zero]

theorem exists_first (t : Beat) (ws : List Beat) (lists : t.lists = true) (old : t.decodes = false)
    (idle : ∀ v ∈ vs, v.decodes = false) : ∃ vs' t' ws', vs ++ t :: ws = vs' ++ t' :: ws' ∧
      t'.lists = true ∧ t'.decodes = false ∧ ∀ v ∈ vs', v.lists = false ∧ v.decodes = false := by
  induction vs with
  | nil => exact ⟨[], t, ws, rfl, lists, old, by simp⟩
  | cons v vs ih =>
    have still : v.decodes = false := idle v (.head _)
    by_cases draws : v.lists = true
    · exact ⟨[], v, vs ++ t :: ws, rfl, draws, still, by simp⟩
    · obtain ⟨vs', t', ws', split, lists', old', dark⟩ := ih fun w hw => idle w (.tail _ hw)
      refine ⟨v :: vs', t', ws', congrArg (v :: ·) split, lists', old', ?_⟩
      rintro w (_ | ⟨_, hw⟩)
      · exact ⟨Bool.eq_false_iff.mpr draws, still⟩
      · exact dark w hw

theorem afresh_iff_not_stale : Afresh beats ↔ ∀ t, ¬Stale beats t := by
  constructor
  · rintro afresh t ⟨us, s, vs, ws, rfl, syncs, lists, idle, old⟩
    obtain ⟨vs', t', ws', split, lists', old', dark⟩ := exists_first t ws lists old idle
    have decodes : t'.decodes = true := afresh s t' ⟨us, vs', ws', by rw [split], syncs, lists', dark⟩
    rw [old'] at decodes
    cases decodes
  · rintro fresh s t ⟨us, vs, ws, rfl, syncs, lists, idle⟩
    by_contra old
    exact fresh t ⟨us, s, vs, ws, rfl, syncs, lists, fun v hv => (idle v hv).2, Bool.eq_false_iff.mpr old⟩

end Chains

/-! ## Calls -/

inductive Task
  | scanLine
  | step
  | frame
  deriving DecidableEq, Repr

/-- What is asked of the coprocessor, with the board as it is then. -/
structure Call where
  task : Task
  store : Store
  board : Board

namespace Call

def beats (c : Call) (antic : Antic) : List Beat :=
  match c.task with
  | .scanLine => [.line c.store antic c.board]
  | .step => [.step c.store antic c.board]
  | .frame => (moments c.store (maxLines + 1) antic c.board).map fun x => .line c.store x.1 x.2

def perform (c : Call) (d : Display) : Display :=
  match c.task with
  | .scanLine => (d.scanLine c.store c.board).2.1
  | .step => (d.step c.store c.board).2.1
  | .frame => (d.frame c.store c.board).2.1

theorem chain_beats (c : Call) (d : Display) : Chain d.antic (c.beats d.antic) (c.perform d).antic := by
  obtain ⟨task, store, b⟩ := c
  cases task with
  | scanLine => exact ⟨rfl, rfl⟩
  | step => exact ⟨rfl, rfl⟩
  | frame => exact chain_moments ..

end Call

end Antic

namespace Display

open Antic

/-- What the coprocessor does in a run of calls. -/
def beats : (d : Display) → List Call → List Beat
  | _, [] => []
  | d, c :: calls => c.beats d.antic ++ (c.perform d).beats calls

/-- The display behind a run of calls. -/
def performAll (d : Display) (calls : List Call) : Display := calls.foldl (fun d c => c.perform d) d

theorem chain_beats (d : Display) (calls : List Call) :
    Chain d.antic (d.beats calls) (d.performAll calls).antic := by
  induction calls generalizing d with
  | nil => rfl
  | cons c calls ih => exact chain_append.mpr ⟨_, c.chain_beats d, ih (c.perform d)⟩

/-- **When frames begin afresh.** All that the coprocessor does in a run of calls follows from one thing to the
next. A scan line that decodes draws the instruction at the cursor, and any other goes on with the instruction
under way. Behind a vertical sync the lines that the sync has left are drawn first; a jump leaves none, and the
end of a frame without a display list leaves all that were left before it. So the frames of a run begin afresh
exactly if no sync with lines left comes before a scan line of a display list. -/
theorem afresh_iff (d : Display) (calls : List Call) :
    Chain d.antic (d.beats calls) (d.performAll calls).antic ∧
    (∀ t ∈ d.beats calls,
      t.after.current = if t.decodes then some t.atCursor else t.before.current) ∧
    (∀ us s vs t ws, d.beats calls = us ++ s :: (vs ++ t :: ws) → s.Syncs → t.lists = true →
      (∀ v ∈ vs, v.decodes = false) →
        (t.decodes = true ↔ s.leftover ≤ vs.countP (·.lists)) ∧ t.before.current = s.after.current) ∧
    (Afresh (d.beats calls) ↔ ∀ s t, Resumes (d.beats calls) s t → s.leftover = 0) ∧
    (Afresh (d.beats calls) ↔ ∀ t, ¬Stale (d.beats calls) t) := by
  have chain := d.chain_beats calls
  refine ⟨chain, fun t _ => ?_, fun us s vs t ws split syncs lists idle => ?_, chain.afresh_iff_leftover,
    afresh_iff_not_stale⟩
  · split
    · exact Beat.current_of_decodes ‹_›
    · exact (Beat.after_of_not_decodes (Bool.eq_false_iff.mpr ‹_›)).1
  · rw [split] at chain
    exact chain.decodes_iff syncs lists idle

/-- A scan line of characters. -/
def characters : Call := ⟨.scanLine, Board.setByte, listed 0x02⟩

def dark : Call := ⟨.frame, Board.setByte, {}⟩

/-- **A stale scan line**: behind the first of eight lines of characters and a frame without a display list,
seven lines are left. -/
theorem not_afresh_characters :
    ¬Afresh ((on (.recorder {})).beats [characters, dark, characters]) := by
  intro afresh
  let begun := characters.perform (on (.recorder {}))
  let frame := moments Board.setByte (maxLines + 1) begun.antic {}
  have ends : frame.getLast?.map (fun x => (x.1.remaining, x.1.line, Video.displayListDma x.2.memory)) =
      some (7, 261, false) := by decide +kernel
  obtain ⟨x, last, facts⟩ := Option.map_eq_some_iff.mp ends
  obtain ⟨lines, whole⟩ := List.getLast?_eq_some_iff.mp last
  obtain ⟨left, line, off⟩ :
      x.1.remaining = 7 ∧ x.1.line = 261 ∧ Video.displayListDma x.2.memory = false := by
    simpa using facts
  let s : Beat := .line Board.setByte x.1 x.2
  let t : Beat := .line Board.setByte (dark.perform begun).antic (listed 0x02)
  have syncs : s.Syncs := by
    show x.1.Syncs x.2.memory
    simp [Syncs, off, line, linesPerFrame]
  have leftover : s.leftover = 7 := by simp [s, Beat.leftover, off, left]
  have resumes : Resumes ((on (.recorder {})).beats [characters, dark, characters]) s t := by
    refine ⟨.line Board.setByte {} (listed 0x02) :: lines.map fun x => .line Board.setByte x.1 x.2, [], [],
      ?_, syncs, by decide +kernel, by simp⟩
    show Beat.line Board.setByte {} (listed 0x02) ::
      ((frame.map fun x => Beat.line Board.setByte x.1 x.2) ++ [t]) = _
    simp [whole, s]
  have none := (chain_beats _ _).afresh_iff_leftover.mp afresh s t resumes
  rw [leftover] at none
  cases none

end Display

end Atari
