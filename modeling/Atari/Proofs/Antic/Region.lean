import Atari.Proofs.Antic.Beam
import Mathlib.Tactic.Ring

/-!
# Scrolled regions

Mode lines with vertical scrolling and the first one without it form a region. The vertical scroll is cut off at
the top of the first line and added at the bottom of the last one, so that the region has the same height for
every vertical scroll, and what lies below it stays where it is.

* `DisplayInstruction.picture`: the rows that instructions draw, one after the other;
* `Antic.ahead`: the rows that lie ahead: those left of the instruction under way, and those of instructions
  still to be decoded; `Antic.Beat.ahead_eq`: a scan line draws the first of them;
* `Antic.Runs`: scan lines in a row; **`Antic.Runs.ahead_eq`**: they draw what lies ahead;
* `DisplayWalk.Lists`: instructions in memory; `DisplayWalk.Reached.decodes`: scan lines decode them;
* `ScrolledRegion`: a region; `ScrolledRegion.picture_program`, `ScrolledRegion.length_lines`: its rows, and how
  many they are;
* **`ScrolledRegion.draws_lines`**: scan lines draw these.
-/

namespace Atari

/-- A row of an instruction, which a scan line shows. -/
abbrev ScanRow := Option DisplayInstruction × Nat

/-! ## Rows of instructions -/

namespace DisplayInstruction

def rowsFrom (i : DisplayInstruction) (first count : Nat) : List ScanRow :=
  (List.range' first count).map fun row => (some i, row)

/-- The first row that an instruction draws. -/
def firstRow (i : DisplayInstruction) (vscrol : Nat) (inRegion : Bool) : Nat :=
  match i with
  | modeLine mode _ scrolls _ _ => (Antic.rows mode.height vscrol inRegion scrolls).1
  | blank _ _ | jump _ _ _ => 0

/-- Whether a scrolled region is open behind an instruction. Mode lines open and close it, and jumps that stay in
the frame leave it as it is. -/
def opens (i : DisplayInstruction) (inRegion : Bool) : Bool :=
  match i with
  | blank _ _ => false
  | jump _ verticalBlank _ => inRegion && !verticalBlank
  | modeLine _ _ scrolls _ _ => scrolls

/-- The rows that instructions draw, one after the other. -/
def picture (vscrol : Nat) : (inRegion : Bool) → List DisplayInstruction → List ScanRow
  | _, [] => []
  | inRegion, i :: is =>
    i.rowsFrom (i.firstRow vscrol inRegion) (i.lineCount vscrol inRegion) ++ picture vscrol (i.opens inRegion) is

theorem length_rowsFrom (i : DisplayInstruction) (first count : Nat) :
    (i.rowsFrom first count).length = count := by
  simp [rowsFrom]

end DisplayInstruction

namespace Antic

open DisplayInstruction

variable {antic first last next : Antic} {store : Store} {b : Board} {program rest : List DisplayInstruction}
  {v : Nat}

/-- The rows that are left of the instruction under way. -/
def left (antic : Antic) : List ScanRow :=
  (List.range' antic.row antic.remaining).map fun row => (antic.current, row)

/-- The rows that lie ahead, if these are the next instructions. -/
def ahead (vscrol : Nat) (antic : Antic) (program : List DisplayInstruction) : List ScanRow :=
  antic.left ++ picture vscrol antic.scrollRegion program

theorem left_of_idle (idle : antic.remaining = 0) : antic.left = [] := by
  rw [left, idle]
  rfl

theorem left_eq_cons (store : Store) (b : Board) (more : 0 < antic.remaining) :
    antic.left = (antic.current, antic.row) :: (antic.endLine store b).1.left := by
  obtain ⟨n, hn⟩ := Nat.exists_eq_add_one_of_ne_zero (Nat.pos_iff_ne_zero.mp more)
  rw [left, left, current_endLine, remaining_endLine, row_endLine, hn, Nat.add_sub_cancel, List.range'_succ,
    List.map_cons]

/-! ## Decoding -/

theorem scrollRegion_verticalSync (store : Store) (antic : Antic) (b : Board) :
    (antic.verticalSync store b).1.scrollRegion = false := by
  obtain ⟨request, synced⟩ := verticalSync_eq store antic b
  rw [synced]

theorem step_rows (store : Store) (antic : Antic) (b : Board) :
    (antic.step store b).2.1.scrollRegion = (antic.step store b).1.opens antic.scrollRegion ∧
    ((antic.step store b).1.endsFrame = false →
      (antic.step store b).2.1.row = (antic.step store b).1.firstRow
        (Video.vscrol (antic.step store b).2.2.memory).toNat antic.scrollRegion) := by
  unfold step
  dsimp only
  cases hi : DisplayInstruction.decode b.memory (Video.displayList b.memory) with
  | blank lines interrupt => exact ⟨rfl, fun _ => rfl⟩
  | jump target verticalBlank interrupt =>
    cases verticalBlank with
    | false => exact ⟨(Bool.and_true _).symm, fun _ => rfl⟩
    | true =>
      exact ⟨(scrollRegion_verticalSync ..).trans (Bool.and_false _).symm, fun stays => nomatch stays⟩
  | modeLine mode scan scrolls horizontal interrupt => cases scan <;> exact ⟨rfl, fun _ => rfl⟩

theorem ahead_step (idle : antic.remaining = 0) (stays : (antic.step store b).1.endsFrame = false)
    (scroll : (Video.vscrol (antic.step store b).2.2.memory).toNat = v) :
    ahead v antic ((antic.step store b).1 :: program) = ahead v (antic.step store b).2.1 program := by
  obtain ⟨region, row⟩ := step_rows store antic b
  have left : (antic.step store b).2.1.left = (antic.step store b).1.rowsFrom
      ((antic.step store b).1.firstRow v antic.scrollRegion)
      ((antic.step store b).1.lineCount v antic.scrollRegion) := by
    rw [Antic.left, current_step, row stays, (step_lines store antic b).1, scroll, rowsFrom]
  rw [ahead, ahead, left_of_idle idle, left, region, List.nil_append, picture]

namespace Beat

/-- The coprocessor and the board when a scan line of a display list is drawn. -/
def drawing : Beat → Antic × Board
  | line store antic b | step store antic b => antic.drawing store b

/-- The row that a scan line of a display list draws. -/
def drawn (t : Beat) : ScanRow := (t.drawing.1.current, t.drawing.1.row)

def pixels (t : Beat) : List Byte := t.drawing.1.pixels t.drawing.2.memory

/-- The instruction that a beat decodes, if it decodes one. -/
def decoded (t : Beat) : List DisplayInstruction := if t.decodes then [t.atCursor] else []

/-- The vertical scroll behind the decoding of an instruction, where it is read. -/
def scroll : Beat → Nat
  | line store antic b | step store antic b => (Video.vscrol (antic.step store b).2.2.memory).toNat

variable {t : Beat} (lists : t.lists = true) (stays : t.decodes = true → t.atCursor.endsFrame = false)

include lists stays

theorem not_syncs_of_stays : ¬t.Syncs := by
  cases t with
  | step => cases lists
  | line store antic b =>
    have dma : Video.displayListDma b.memory = true := lists
    show ¬antic.Syncs b.memory
    unfold Antic.Syncs
    rw [if_pos dma]
    rintro ⟨idle, ends⟩
    have decodes : (line store antic b).decodes = true := by simp [decodes, dma, idle]
    exact Bool.eq_false_iff.mp (stays decodes) ends

theorem shown_eq : t.shown = some (.picture t.pixels) := by
  have draws := not_syncs_of_stays lists stays
  cases t with
  | step => cases lists
  | line store antic b =>
    show some (antic.scanLine store b).1 = _
    rw [scanLine_of_dma store lists draws]
    rfl

/-- **A scan line draws the first of the rows ahead.** -/
theorem ahead_eq (scroll : t.decodes = true → t.scroll = v) (program : List DisplayInstruction) :
    ahead v t.before (t.decoded ++ program) = t.drawn :: ahead v t.after program ∧
      t.after.scrollRegion = t.decoded.foldl (fun inRegion i => i.opens inRegion) t.before.scrollRegion := by
  have draws := not_syncs_of_stays lists stays
  cases t with
  | step => cases lists
  | line store antic b =>
    have dma : Video.displayListDma b.memory = true := lists
    have after : (line store antic b).after =
        ((antic.drawing store b).1.endLine store (antic.drawing store b).2).1 := by
      show (antic.scanLine store b).2.1 = _
      rw [scanLine_of_dma store dma draws]
      rfl
    have row : ahead v (antic.drawing store b).1 program =
        (line store antic b).drawn :: ahead v (line store antic b).after program := by
      rw [after, ahead, ahead, left_eq_cons store (antic.drawing store b).2 (drawing_remaining dma draws),
        scrollRegion_endLine]
      rfl
    rw [← row, after, scrollRegion_endLine]
    -- A scan line that finds no rows left decodes an instruction, whose rows were those of the program.
    unfold Antic.drawing decoded
    by_cases idle : antic.remaining = 0
    · have decodes : (line store antic b).decodes = true := by simp [decodes, dma, idle]
      have cursor : (line store antic b).atCursor = (antic.step store b).1 := (step_fst ..).symm
      have stay : (antic.step store b).1.endsFrame = false := cursor ▸ stays decodes
      rw [if_pos idle, if_pos decodes, cursor]
      exact ⟨ahead_step idle stay (scroll decodes), (step_rows ..).1⟩
    · have goesOn : ¬(line store antic b).decodes = true := by simp [decodes, idle]
      rw [if_neg idle, if_neg goesOn]
      exact ⟨rfl, rfl⟩

end Beat

/-! ## Scan lines in a row -/

/-- Nothing is done to the rows of the instruction under way, as when an interrupt is taken. -/
structure SameRows (antic next : Antic) : Prop where
  current : next.current = antic.current
  remaining : next.remaining = antic.remaining
  row : next.row = antic.row
  scrollRegion : next.scrollRegion = antic.scrollRegion

theorem SameRows.ahead_eq (h : first.SameRows next) : ahead v next program = ahead v first program := by
  rw [ahead, ahead, left, left, h.current, h.remaining, h.row, h.scrollRegion]

/-- Beats that come one after the other. Between them nothing is done to the rows of the instruction under
way. -/
def Runs (first : Antic) : List Beat → (last : Antic) → Prop
  | [], last => first.SameRows last
  | t :: beats, last => first.SameRows t.before ∧ Runs t.after beats last

variable {beats : List Beat}

theorem Chain.runs (h : Chain first beats last) : Runs first beats last := by
  induction beats generalizing first with
  | nil =>
    cases h
    exact ⟨rfl, rfl, rfl, rfl⟩
  | cons t beats ih =>
    obtain ⟨rfl, chain⟩ := h
    exact ⟨⟨rfl, rfl, rfl, rfl⟩, ih chain⟩

/-- **Scan lines draw what lies ahead**: the rows left of the instruction under way, and those of the
instructions that they decode. -/
theorem Runs.ahead_eq (run : Runs first beats last) (lists : ∀ t ∈ beats, t.lists = true)
    (stays : ∀ t ∈ beats, t.decodes = true → t.atCursor.endsFrame = false)
    (scroll : ∀ t ∈ beats, t.decodes = true → t.scroll = v) (rest : List DisplayInstruction) :
    ahead v first (beats.flatMap (·.decoded) ++ rest) = beats.map (·.drawn) ++ ahead v last rest ∧
      last.scrollRegion =
        (beats.flatMap (·.decoded)).foldl (fun inRegion i => i.opens inRegion) first.scrollRegion := by
  induction beats generalizing first with
  | nil => exact ⟨(SameRows.ahead_eq run).symm, SameRows.scrollRegion run⟩
  | cons t beats ih =>
    obtain ⟨same, run⟩ := run
    obtain ⟨list, lists⟩ := List.forall_mem_cons.mp lists
    obtain ⟨stay, stays⟩ := List.forall_mem_cons.mp stays
    obtain ⟨fixed, scroll⟩ := List.forall_mem_cons.mp scroll
    obtain ⟨later, region⟩ := ih run lists stays scroll
    obtain ⟨row, opened⟩ := t.ahead_eq list stay fixed (beats.flatMap (·.decoded) ++ rest)
    rw [List.flatMap_cons, List.append_assoc, ← same.ahead_eq, row, later, region, opened, same.scrollRegion,
      List.foldl_append]
    exact ⟨rfl, rfl⟩

end Antic

/-! ## Instructions in memory -/

namespace DisplayWalk

open DisplayInstruction Antic

/-- Instructions that stand in memory from a place on, one after the other where each leads, with the place
behind them. None of them takes a byte from the given addresses. -/
inductive Lists (m : Memory) (addresses : List Address) : Spot → List DisplayInstruction → Spot → Prop
  | nil {s : Spot} : Lists m addresses s [] s
  | cons {s next last : Spot} {k : Nat} {program : List DisplayInstruction} : leg m s = .lines k next →
    Clear m s addresses → Lists m addresses next program last →
    Lists m addresses s (decode m s.address :: program) last

variable {m : Memory} {s last : Spot} {left n : Nat} {antic : Antic} {b : Board} {program : List DisplayInstruction}

/-- So many scan lines decode some instructions and come to a place. -/
structure Decodes (m : Memory) (antic : Antic) (b : Board) (program : List DisplayInstruction) (last : Spot)
    (n : Nat) : Prop where
  length : (moments Board.setByte n antic b).length = n
  lists : ∀ x ∈ moments Board.setByte n antic b, (Beat.line Board.setByte x.1 x.2).lists = true
  scroll : ∀ x ∈ moments Board.setByte n antic b,
    (Beat.line Board.setByte x.1 x.2).scroll = (Video.vscrol m).toNat
  decoded : (moments Board.setByte n antic b).flatMap (fun x => (Beat.line Board.setByte x.1 x.2).decoded) =
    program
  reached : Reached m last 0 (antic.linesUpTo Board.setByte n b).2.1 (antic.linesUpTo Board.setByte n b).2.2

theorem Decodes.cons {pixels : List Byte} {antic' : Antic} {b' : Board} (h : Reached m s left antic b)
    (dma : Video.displayListDma m = true) (hs : antic.scanLine Board.setByte b = (.picture pixels, antic', b'))
    (others : Decodes m antic' b' program last n) :
    Decodes m antic b ((Beat.line Board.setByte antic b).decoded ++ program) last (n + 1) := by
  obtain ⟨length, lists, scroll, decoded, reached⟩ := others
  have vscrol : (Beat.line Board.setByte antic b).scroll = (Video.vscrol m).toNat :=
    congrArg UInt8.toNat (h.same.trans (leaves_step antic b).agree).vscrol
  have first : moments Board.setByte (n + 1) antic b = (antic, b) :: moments Board.setByte n antic' b' := by
    rw [moments, hs]
    dsimp only
    rw [if_neg ScanLine.noConfusion]
  constructor
  · rw [first]
    exact congrArg Nat.succ length
  · rw [first]
    exact List.forall_mem_cons.mpr ⟨h.dma dma, lists⟩
  · rw [first]
    exact List.forall_mem_cons.mpr ⟨vscrol, scroll⟩
  · rw [first, List.flatMap_cons, decoded]
  · rw [linesUpTo_picture hs]
    exact reached

theorem Reached.decodes_behind (h : Reached m s left antic b) (dma : Video.displayListDma m = true)
    (behind : ∀ {antic b}, Reached m s 0 antic b → ∃ n, Decodes m antic b program last n) :
    ∃ n, Decodes m antic b program last n := by
  induction left generalizing antic b with
  | zero => exact behind h
  | succ left ih =>
    obtain ⟨pixels, antic', b', hs, reached⟩ := h.scanLine_open dma
    obtain ⟨n, others⟩ := ih reached
    have open' : (Beat.line Board.setByte antic b).decoded = [] := by
      simp [Beat.decoded, Beat.decodes, h.remaining]
    have decodes := others.cons h dma hs
    rw [open', List.nil_append] at decodes
    exact ⟨_, decodes⟩

/-- **Scan lines decode the instructions in memory**, one after the other. -/
theorem Reached.decodes (h : Reached m s left antic b) (dma : Video.displayListDma m = true)
    (lists : Lists m registers s program last) : ∃ n, Decodes m antic b program last n := by
  induction lists generalizing left antic b with
  | nil =>
    exact h.decodes_behind dma fun {antic b} h => ⟨0, rfl, by simp [moments], by simp [moments], rfl, h⟩
  | @cons s next last k program hl clear _ ih =>
    -- First the lines of the instruction before, then the first line of this one, and then those of the others.
    refine h.decodes_behind dma fun {antic b} h => ?_
    obtain ⟨k, rfl⟩ := Nat.exists_eq_succ_of_ne_zero (Nat.ne_of_gt (leg_lines_pos hl))
    obtain ⟨pixels, antic', b', hs, reached⟩ := h.scanLine_lines dma clear hl
    obtain ⟨n, others⟩ := ih reached
    have decoded : (Beat.line Board.setByte antic b).decoded = [decode m s.address] := by
      have decodes : (Beat.line Board.setByte antic b).decodes = true := by
        simp [Beat.decodes, h.remaining, h.dma dma]
      rw [Beat.decoded, if_pos decodes, Beat.atCursor, h.cursor, h.decode_eq clear]
    have decodes := others.cons h dma hs
    rw [decoded] at decodes
    exact ⟨_, decodes⟩

end DisplayWalk

/-! ## Regions -/

namespace DisplayInstruction

/-- A mode line of a height, with vertical scrolling or without it. -/
def IsModeLine (height : Nat) (scrolls : Bool) : DisplayInstruction → Prop
  | modeLine mode _ vertical _ _ => mode.height = height ∧ vertical = scrolls
  | blank _ _ | jump _ _ _ => False

/-- A jump that stays in the frame. -/
def IsPlainJump : DisplayInstruction → Prop
  | jump _ verticalBlank _ => verticalBlank = false
  | blank _ _ | modeLine _ _ _ _ _ => False

instance (height : Nat) (scrolls : Bool) : DecidablePred (IsModeLine height scrolls)
  | modeLine _ _ _ _ _ => inferInstanceAs (Decidable (_ ∧ _))
  | blank _ _ | jump _ _ _ => inferInstanceAs (Decidable False)

instance : DecidablePred IsPlainJump
  | jump _ _ _ => inferInstanceAs (Decidable (_ = _))
  | blank _ _ | modeLine _ _ _ _ _ => inferInstanceAs (Decidable False)

variable {i : DisplayInstruction} {h : Nat} {scrolls : Bool}

theorem IsModeLine.eq (line : i.IsModeLine h scrolls) : ∃ mode scan horizontal interrupt,
    i = modeLine mode scan scrolls horizontal interrupt ∧ mode.height = h := by
  cases i with
  | modeLine mode scan vertical horizontal interrupt =>
    obtain ⟨height, rfl⟩ := line
    exact ⟨mode, scan, horizontal, interrupt, rfl, height⟩
  | blank | jump => exact line.elim

theorem IsPlainJump.eq (jumps : i.IsPlainJump) : ∃ target interrupt, i = jump target false interrupt := by
  cases i with
  | jump target verticalBlank interrupt =>
    obtain rfl : verticalBlank = false := jumps
    exact ⟨target, interrupt, rfl⟩
  | blank | modeLine => exact jumps.elim

/-- Within a region, a mode line with vertical scrolling and a jump draw all of their rows, and keep it open. -/
theorem within_region (inside : i.IsModeLine h true ∨ i.IsPlainJump) (vscrol : Nat) :
    i.firstRow vscrol true = 0 ∧ i.lineCount vscrol true = i.height ∧ i.opens true = true := by
  obtain line | jumps := inside
  · obtain ⟨mode, scan, horizontal, interrupt, rfl, -⟩ := line.eq
    exact ⟨rfl, rfl, rfl⟩
  · obtain ⟨target, interrupt, rfl⟩ := jumps.eq
    exact ⟨rfl, rfl, rfl⟩

end DisplayInstruction

open DisplayInstruction Antic

/-- A scrolled region: mode lines of a height with vertical scrolling, with jumps between them, and the first mode
line of the height without it. -/
structure ScrolledRegion where
  height : Nat
  first : DisplayInstruction
  middle : List DisplayInstruction
  closing : DisplayInstruction
  positive : 0 < height
  begins : first.IsModeLine height true
  goesOn : ∀ i ∈ middle, i.IsModeLine height true ∨ i.IsPlainJump
  ends : closing.IsModeLine height false

namespace ScrolledRegion

variable (r : ScrolledRegion) (v : Nat)

def program : List DisplayInstruction := r.first :: (r.middle ++ [r.closing])

/-- How many of the mode lines have vertical scrolling. -/
def scrolling : Nat := 1 + r.middle.countP (fun i => i.IsModeLine r.height true)

def jumps : Nat := r.middle.countP (fun i => i.IsPlainJump)

/-- The rows of a region: those of the first mode line from the vertical scroll on, all of those in the middle, and
those of the last one up to the vertical scroll. -/
def lines : List ScanRow :=
  let top := min v (r.height - 1)
  r.first.rowsFrom top (r.height - top) ++ r.middle.flatMap (fun i => i.rowsFrom 0 i.height) ++
    r.closing.rowsFrom 0 (top + 1)

variable {v}

theorem picture_middle (is : List DisplayInstruction)
    (inside : ∀ i ∈ is, i.IsModeLine r.height true ∨ i.IsPlainJump) :
    picture v true (is ++ [r.closing]) = is.flatMap (fun i => i.rowsFrom 0 i.height) ++
      r.closing.rowsFrom 0 (min v (r.height - 1) + 1) := by
  induction is with
  | nil =>
    obtain ⟨mode, scan, horizontal, interrupt, closing, height⟩ := r.ends.eq
    rw [closing, ← height]
    exact List.append_nil _
  | cons i is ih =>
    obtain ⟨one, others⟩ := List.forall_mem_cons.mp inside
    obtain ⟨first, count, stays⟩ := within_region one v
    rw [List.cons_append, picture, first, count, stays, ih others, List.flatMap_cons, List.append_assoc]

/-- **The picture of a region.** -/
theorem picture_program : picture v false r.program = r.lines v := by
  obtain ⟨mode, scan, horizontal, interrupt, first, height⟩ := r.begins.eq
  rw [program, picture, lines, List.append_assoc, ← r.picture_middle _ r.goesOn, first, ← height]
  rfl

theorem length_middle (h : Nat) (is : List DisplayInstruction)
    (inside : ∀ i ∈ is, i.IsModeLine h true ∨ i.IsPlainJump) :
    (is.flatMap fun i => i.rowsFrom 0 i.height).length =
      is.countP (fun i => i.IsModeLine h true) * h + is.countP (fun i => i.IsPlainJump) := by
  induction is with
  | nil => simp
  | cons i is ih =>
    obtain ⟨one, others⟩ := List.forall_mem_cons.mp inside
    rw [List.flatMap_cons, List.length_append, length_rowsFrom, ih others, List.countP_cons, List.countP_cons]
    obtain line | jumps := one
    · have only : ¬i.IsPlainJump ∧ i.height = h := by
        obtain ⟨mode, scan, horizontal, interrupt, rfl, rfl⟩ := line.eq
        exact ⟨id, rfl⟩
      simp only [line, only, decide_true, decide_false, if_true, Bool.false_eq_true, if_false]
      ring
    · have only : ¬i.IsModeLine h true ∧ i.height = 1 := by
        obtain ⟨target, interrupt, rfl⟩ := jumps.eq
        exact ⟨id, rfl⟩
      simp only [jumps, only, decide_true, decide_false, if_true, Bool.false_eq_true, if_false]
      ring

/-- **The height of a region** does not depend on the vertical scroll. -/
theorem length_lines : (r.lines v).length = r.scrolling * r.height + 1 + r.jumps := by
  have pos := r.positive
  simp only [lines, List.length_append, length_rowsFrom, length_middle _ _ r.goesOn, scrolling, jumps, add_mul]
  omega

theorem of_mem_program {i : DisplayInstruction} (h : i ∈ r.program) :
    i.endsFrame = false ∧ ∀ inRegion, 0 < i.lineCount v inRegion := by
  have ofLine {scrolls : Bool} (line : i.IsModeLine r.height scrolls) :
      i.endsFrame = false ∧ ∀ inRegion, 0 < i.lineCount v inRegion := by
    have pos := r.positive
    obtain ⟨mode, scan, horizontal, interrupt, rfl, height⟩ := line.eq
    refine ⟨rfl, fun inRegion => ?_⟩
    cases inRegion <;> cases scrolls <;> simp only [lineCount, DisplayWalk.rowCount] <;> omega
  simp only [program, List.mem_cons, List.mem_append, List.not_mem_nil, or_false] at h
  obtain rfl | mem | rfl := h
  · exact ofLine r.begins
  · obtain line | jumps := r.goesOn i mem
    · exact ofLine line
    · obtain ⟨target, interrupt, rfl⟩ := jumps.eq
      exact ⟨rfl, fun _ => Nat.one_pos⟩
  · exact ofLine r.ends

theorem opens_program (inRegion : Bool) :
    r.program.foldl (fun inRegion i => i.opens inRegion) inRegion = false := by
  obtain ⟨mode, scan, horizontal, interrupt, closing, -⟩ := r.ends.eq
  rw [program, List.foldl_cons, List.foldl_append, closing]
  rfl

variable {r} {first last : Antic} {beats : List Beat} {rest : List DisplayInstruction}

/-- Scan lines that decode some instructions of a region draw its first rows, and all of them exactly if none of
the instructions is left and no row of the last one. -/
theorem of_runs (run : Runs first beats last) (idle : first.remaining = 0) (closed : first.scrollRegion = false)
    (lists : ∀ t ∈ beats, t.lists = true) (scroll : ∀ t ∈ beats, t.decodes = true → t.scroll = v)
    (program : beats.flatMap (·.decoded) ++ rest = r.program) :
    r.lines v = beats.map (·.drawn) ++ ahead v last rest ∧
      (∀ t ∈ beats, t.shown = some (.picture t.pixels)) ∧
      (beats.length = (r.lines v).length ↔ last.remaining = 0 ∧ rest = []) ∧
      (rest = [] → last.scrollRegion = false) := by
  -- What is decoded is of the region, so the frame goes on.
  have stays : ∀ t ∈ beats, t.decodes = true → t.atCursor.endsFrame = false := by
    intro t ht decodes
    have decoded : t.atCursor ∈ t.decoded := by simp [Beat.decoded, decodes]
    have mem : t.atCursor ∈ r.program :=
      program ▸ List.mem_append_left rest (List.mem_flatMap.mpr ⟨t, ht, decoded⟩)
    exact (r.of_mem_program (v := v) mem).1
  obtain ⟨rows, region⟩ := run.ahead_eq lists stays scroll rest
  rw [program, ahead, left_of_idle idle, closed, List.nil_append, picture_program] at rows
  have nothing : (ahead v last rest).length = 0 ↔ last.remaining = 0 ∧ rest = [] := by
    cases rest with
    | nil => simp [ahead, left, picture]
    | cons i rest =>
      have mem : i ∈ r.program := program ▸ List.mem_append_right _ (.head _)
      have pos := (r.of_mem_program (v := v) mem).2 last.scrollRegion
      simp only [ahead, picture, List.length_append, length_rowsFrom, List.cons_ne_nil, and_false, iff_false]
      omega
  refine ⟨rows, fun t ht => Beat.shown_eq (lists t ht) (stays t ht), ?_, fun none => ?_⟩
  · rw [rows, List.length_append, List.length_map, ← nothing]
    omega
  · rw [none, List.append_nil] at program
    rw [region, program, opens_program]

theorem of_lists {antic : Antic} {b : Board} {place : DisplayWalk.Spot}
    (hooks : ∀ a ∈ registers, b.hooks.on a = []) (dma : Video.displayListDma b.memory = true)
    (scroll : (Video.vscrol b.memory).toNat = v) (idle : antic.remaining = 0)
    (closed : antic.scrollRegion = false)
    (lists : DisplayWalk.Lists b.memory registers ⟨Video.displayList b.memory, false⟩ r.program place) :
    let n := (r.lines v).length
    let beats := (moments Board.store n antic b).map fun x => Beat.line Board.store x.1 x.2
    let behind := (antic.linesUpTo Board.store n b).2
    beats.map (·.drawn) = r.lines v ∧
      (antic.linesUpTo Board.store n b).1 = beats.map (fun t => .picture t.pixels) ∧
      behind.1.remaining = 0 ∧ behind.1.scrollRegion = false ∧
      Video.displayList behind.2.memory = place.address := by
  have start : DisplayWalk.Reached b.memory ⟨Video.displayList b.memory, false⟩ 0 antic b :=
    ⟨idle, closed, rfl, fun _ _ => rfl⟩
  obtain ⟨n, length, list, fixed, decoded, reached⟩ := start.decodes dma lists
  -- Without hooks the bus stores as the walk does, so that the same instructions are decoded.
  have plain : Plain Board.store b.hooks := plain_storeWithin hooks Board.nesting
  have same := moments_plain plain rfl antic n
  rw [← linesUpTo_plain plain rfl antic n] at reached
  let beats := (moments Board.store n antic b).map fun x => Beat.line Board.store x.1 x.2
  have every : ∀ t ∈ beats, t.lists = true ∧ t.scroll = v := by
    intro t ht
    obtain ⟨x, hx, rfl⟩ := List.mem_map.mp ht
    rw [same] at hx
    refine ⟨list x hx, Eq.trans ?_ ((fixed x hx).trans scroll)⟩
    unfold Beat.scroll
    dsimp only
    rw [step_plain plain (hooks_of_mem_moments hx)]
  have program : beats.flatMap (·.decoded) ++ [] = r.program := by
    rw [List.append_nil, List.flatMap_map, same]
    exact decoded
  obtain ⟨rows, shown, whole, closes⟩ := of_runs (chain_moments Board.store n antic b).runs idle closed
    (fun t ht => (every t ht).1) (fun t ht _ => (every t ht).2) program
  have all : beats.length = n := by rw [List.length_map, same, length]
  obtain rfl : (r.lines v).length = n := (whole.mpr ⟨reached.remaining, rfl⟩).symm.trans all
  refine ⟨?_, ?_, reached.remaining, closes rfl, reached.cursor⟩
  · rw [ahead, left_of_idle reached.remaining, picture, List.append_nil, List.append_nil] at rows
    exact rows.symm
  · rw [← shown_moments, List.filterMap_congr shown, List.filterMap_eq_map']

/-- **Scan lines draw the rows of a region.** A region has `k * h + 1` of them, and one more for each jump, for `k`
mode lines of height `h` with vertical scrolling and any vertical scroll. Scan lines that begin outside of a region
and decode its instructions, one after the other, show its rows as long as the vertical scroll stays the same where
an instruction is decoded. If the instructions stand in memory, so many scan lines show all of the rows. -/
theorem draws_lines (r : ScrolledRegion) (v : Nat) :
    (r.lines v).length = r.scrolling * r.height + 1 + r.jumps ∧
    (∀ first beats last rest, Runs first beats last → first.remaining = 0 → first.scrollRegion = false →
      (∀ t ∈ beats, t.lists = true) → (∀ t ∈ beats, t.decodes = true → t.scroll = v) →
      beats.flatMap (·.decoded) ++ rest = r.program →
        r.lines v = beats.map (·.drawn) ++ ahead v last rest ∧
        (∀ t ∈ beats, t.shown = some (.picture t.pixels)) ∧
        (beats.length = (r.lines v).length ↔ last.remaining = 0 ∧ rest = []) ∧
        (rest = [] → last.scrollRegion = false)) ∧
    ∀ (antic : Antic) (b : Board) (place : DisplayWalk.Spot), (∀ a ∈ registers, b.hooks.on a = []) →
      Video.displayListDma b.memory = true → (Video.vscrol b.memory).toNat = v →
      antic.remaining = 0 → antic.scrollRegion = false →
      DisplayWalk.Lists b.memory registers ⟨Video.displayList b.memory, false⟩ r.program place →
        let n := (r.lines v).length
        let beats := (moments Board.store n antic b).map fun x => Beat.line Board.store x.1 x.2
        let behind := (antic.linesUpTo Board.store n b).2
        beats.map (·.drawn) = r.lines v ∧
        (antic.linesUpTo Board.store n b).1 = beats.map (fun t => .picture t.pixels) ∧
        behind.1.remaining = 0 ∧ behind.1.scrollRegion = false ∧
        Video.displayList behind.2.memory = place.address := by
  refine ⟨r.length_lines, ?_, ?_⟩
  · intro first beats last rest run idle closed lists scroll program
    exact of_runs run idle closed lists scroll program
  · intro antic b place hooks dma scroll idle closed lists
    exact of_lists hooks dma scroll idle closed lists

/-- Two lines of characters that scroll, a jump and a line that does not scroll. -/
def text : ScrolledRegion where
  height := 8
  first := .modeLine .text40 none true false false
  middle := [.modeLine .text40 none true false false, .jump 0x0010 false false]
  closing := .modeLine .text40 none false false false
  positive := by decide
  begins := by decide
  goesOn := by decide
  ends := by decide

/-- A board with these lines in its display list, which scroll by three rows. -/
def textBoard : Board where
  memory := (((((Display.listed 0x22).memory.set 0x0001 0x22).set 0x0002 0x01).set 0x0003 0x10).set 0x0010 0x02).set
    Control.vscrol 0x03

/-- The lines take 5 and 8 and 1 and 4 scan lines. Behind six of them, the rest of the second line lies ahead, and
what comes behind it. -/
theorem draws_lines_text :
    let beats n := (moments Board.store n {} textBoard).map fun x => Beat.line Board.store x.1 x.2
    let behind n := (linesUpTo Board.store n {} textBoard).2.1
    (text.lines 3).length = 18 ∧
      text.lines 3 = (beats 6).map (·.drawn) ++ ahead 3 (behind 6) [.jump 0x0010 false false, text.closing] ∧
      (beats 18).map (·.drawn) = text.lines 3 ∧ (behind 18).scrollRegion = false := by
  intro beats behind
  obtain ⟨length, begun, whole⟩ := draws_lines text 3
  have length : (text.lines 3).length = 18 := length
  have program : text.program = [decode textBoard.memory 0x0000, decode textBoard.memory 0x0001,
      decode textBoard.memory 0x0002, decode textBoard.memory 0x0010] := by decide +kernel
  have start : Video.displayList textBoard.memory = 0x0000 := by decide +kernel
  have lists : DisplayWalk.Lists textBoard.memory registers ⟨Video.displayList textBoard.memory, false⟩
      text.program ⟨0x0011, false⟩ := by
    have first : DisplayWalk.leg textBoard.memory ⟨0x0000, false⟩ = .lines 5 ⟨0x0001, true⟩ := by decide +kernel
    have second : DisplayWalk.leg textBoard.memory ⟨0x0001, true⟩ = .lines 8 ⟨0x0002, true⟩ := by decide +kernel
    have jump : DisplayWalk.leg textBoard.memory ⟨0x0002, true⟩ = .lines 1 ⟨0x0010, true⟩ := by decide +kernel
    have closing : DisplayWalk.leg textBoard.memory ⟨0x0010, true⟩ = .lines 4 ⟨0x0011, false⟩ := by decide +kernel
    rw [program, start]
    exact .cons first (by decide +kernel) (.cons second (by decide +kernel) (.cons jump (by decide +kernel)
      (.cons closing (by decide +kernel) .nil)))
  obtain ⟨rows, -⟩ := begun {} (beats 6) (behind 6) [.jump 0x0010 false false, text.closing]
    (chain_moments ..).runs rfl rfl (by decide +kernel) (by decide +kernel) (by decide +kernel)
  obtain ⟨drawn, -, -, closed, -⟩ := whole {} textBoard ⟨0x0011, false⟩ (fun _ _ => rfl) (by decide +kernel)
    (by decide +kernel) rfl rfl lists
  rw [length] at drawn closed
  exact ⟨length, rows, drawn, closed⟩

end ScrolledRegion

end Atari
