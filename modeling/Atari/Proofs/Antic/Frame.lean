import Atari.Proofs.Antic.UnderWay
import Atari.Proofs.Words

/-!
# Frames

The coprocessor draws one scan line after the other and keeps its place in its registers. What it
draws up to the end of a frame is what a walk through the display list counts.

* `DisplayWalk.Reached`: the coprocessor has come to a place of a walk, with scan lines left to draw;
* **`Display.frame_of_walk`**: a whole frame.
-/

namespace Atari

namespace Antic

/-! ## The cursor -/

theorem displayList_apply_displayList (b : Board) (a : Address) :
    Video.displayList (b.apply Board.setByte (.displayList a)).memory = a := by
  have low : (b.apply Board.setByte (.displayList a)).memory.peek Control.dlistl = a.low := by
    simp [Board.apply, VideoSetting.stores, Board.setByte, Memory.peek_set, Control.dlistl,
      Control.dlisth]
  have high : (b.apply Board.setByte (.displayList a)).memory.peek Control.dlisth = a.high := by
    simp [Board.apply, VideoSetting.stores, Board.setByte]
  rw [Video.displayList, low, high, Address.ofBytes_low_high]

theorem displayList_apply_vcount (b : Board) (v : Byte) :
    Video.displayList (b.apply Board.setByte (.vcount v)).memory = Video.displayList b.memory := by
  simp [Video.displayList, Board.apply, VideoSetting.stores, Board.setByte, Memory.peek_set,
    Control.dlistl, Control.dlisth, Control.vcount]

theorem displayList_apply_nmist (b : Board) (v : Byte) :
    Video.displayList (b.apply Board.setByte (.nmist v)).memory = Video.displayList b.memory := by
  simp [Video.displayList, Board.apply, VideoSetting.stores, Board.setByte, Memory.peek_set,
    Control.dlistl, Control.dlisth, Control.nmist]

theorem displayList_verticalSync (antic : Antic) (b : Board) :
    Video.displayList (antic.verticalSync Board.setByte b).2.memory = Video.displayList b.memory := by
  unfold verticalSync
  dsimp only
  split
  · rw [displayList_apply_nmist, displayList_apply_vcount, Board.note_memory]
  · rw [displayList_apply_vcount, Board.note_memory]

theorem displayList_endLine (antic : Antic) (b : Board) :
    Video.displayList (antic.endLine Board.setByte b).2.memory = Video.displayList b.memory := by
  unfold endLine count
  dsimp only
  split
  · exact displayList_apply_vcount ..
  · split
    · rw [displayList_apply_nmist, Board.note_memory, displayList_apply_vcount]
    · exact displayList_apply_vcount ..

/-! ## The instruction under way -/

theorem scrollRegion_endLine (store : Store) (antic : Antic) (b : Board) :
    (antic.endLine store b).1.scrollRegion = antic.scrollRegion := by
  unfold endLine count advance
  dsimp only
  split
  · rfl
  · split <;> split <;> rfl

end Antic

namespace DisplayWalk

open DisplayInstruction Antic

/-- The coprocessor has come to a place in the display list of the memory `m`, and has `left` scan
lines of the instruction before that place still to draw. -/
structure Reached (m : Memory) (s : Spot) (left : Nat) (antic : Antic) (b : Board) : Prop where
  remaining : antic.remaining = left
  region : antic.scrollRegion = s.inRegion
  cursor : Video.displayList b.memory = s.address
  same : Agree m b.memory

variable {m : Memory} {s next : Spot} {left k n : Nat} {target : Address} {antic : Antic} {b : Board}

theorem Reached.decode_eq (h : Reached m s left antic b) (clear : Clear m s registers) :
    decode b.memory s.address = decode m s.address :=
  decode_congr fun j hj => h.same _ (clear j hj)

theorem Reached.dma (h : Reached m s left antic b) (dma : Video.displayListDma m = true) :
    Video.displayListDma b.memory = true := h.same.displayListDma.trans dma

theorem rows_eq_rowCount {height : Nat} (hh : 0 < height) (vscrol : Nat) (inRegion scrolls : Bool) :
    (rows height vscrol inRegion scrolls).2 - (rows height vscrol inRegion scrolls).1 + 1 =
      rowCount height vscrol inRegion scrolls := by
  cases inRegion <;> cases scrolls <;> simp only [rows, rowCount] <;> omega

/-! ## One scan line -/

theorem Reached.endLine (h : Reached m s (left + 1) antic b) :
    Reached m s left (antic.endLine Board.setByte b).1 (antic.endLine Board.setByte b).2 where
  remaining := by rw [remaining_endLine, h.remaining, Nat.add_sub_cancel]
  region := by rw [scrollRegion_endLine, h.region]
  cursor := by rw [displayList_endLine, h.cursor]
  same := h.same.trans (leaves_endLine antic b).agree

theorem Reached.step_lines (h : Reached m s 0 antic b) (clear : Clear m s registers)
    (hl : leg m s = .lines k next) :
    (antic.step Board.setByte b).1.endsFrame = false ∧
      Reached m next k (antic.step Board.setByte b).2.1 (antic.step Board.setByte b).2.2 := by
  have same : Agree m (antic.step Board.setByte b).2.2.memory :=
    h.same.trans (leaves_step antic b).agree
  suffices hs : (antic.step Board.setByte b).1.endsFrame = false ∧
      (antic.step Board.setByte b).2.1.remaining = k ∧
      (antic.step Board.setByte b).2.1.scrollRegion = next.inRegion ∧
      Video.displayList (antic.step Board.setByte b).2.2.memory = next.address from
    ⟨hs.1, hs.2.1, hs.2.2.1, hs.2.2.2, same⟩
  unfold leg at hl
  rw [← h.decode_eq clear, ← h.cursor] at hl
  unfold Antic.step
  dsimp only
  split at hl <;> rename_i hi <;> rw [hi]
  · cases hl
    exact ⟨rfl, rfl, rfl, displayList_apply_displayList ..⟩
  · cases hl
  · cases hl
    exact ⟨rfl, rfl, h.region, displayList_apply_displayList ..⟩
  · rename_i mode scan scrolls _ _
    cases hl
    -- The cursor moves before the scroll is read, which is in another register.
    have vscrol (level : Level) (body : Unit → String) (a : Address) :
        Video.vscrol ((b.note level body).apply Board.setByte (.displayList a)).memory = Video.vscrol m := by
      rw [((Leaves.note ..).trans (leaves_apply _ (own_displayList a))).agree.vscrol, h.same.vscrol]
    have rows := rows_eq_rowCount (height_pos_of_decode hi) (Video.vscrol m).toNat s.inRegion scrolls
    rw [← h.region] at rows ⊢
    cases scan <;> dsimp only <;> rw [vscrol] <;>
      exact ⟨rfl, rows, rfl, displayList_apply_displayList ..⟩

theorem Reached.step_finish (h : Reached m s 0 antic b) (clear : Clear m s registers)
    (hl : leg m s = .finish target) :
    (antic.step Board.setByte b).1.endsFrame = true ∧
      Video.displayList (antic.step Board.setByte b).2.2.memory = target := by
  unfold leg at hl
  rw [← h.decode_eq clear, ← h.cursor] at hl
  unfold Antic.step
  dsimp only
  split at hl <;> rename_i hi <;> rw [hi]
  · cases hl
  · cases hl
    refine ⟨rfl, ?_⟩
    dsimp only
    rw [if_pos rfl, displayList_verticalSync, displayList_apply_displayList]
  · cases hl
  · cases hl

theorem Reached.scanLine_open (h : Reached m s (left + 1) antic b)
    (dma : Video.displayListDma m = true) :
    ∃ pixels antic' b', antic.scanLine Board.setByte b = (.picture pixels, antic', b') ∧
      Reached m s left antic' b' := by
  have hne : antic.remaining ≠ 0 := by rw [h.remaining]; exact Nat.succ_ne_zero _
  refine ⟨antic.pixels b.memory, (antic.endLine Board.setByte b).1, (antic.endLine Board.setByte b).2,
    ?_, h.endLine⟩
  unfold Antic.scanLine
  rw [if_pos (h.dma dma), if_neg hne]
  rfl

theorem Reached.scanLine_lines (h : Reached m s 0 antic b) (dma : Video.displayListDma m = true)
    (clear : Clear m s registers) (hl : leg m s = .lines (k + 1) next) :
    ∃ pixels antic' b', antic.scanLine Board.setByte b = (.picture pixels, antic', b') ∧
      Reached m next k antic' b' := by
  obtain ⟨goesOn, reached⟩ := h.step_lines clear hl
  refine ⟨(antic.step Board.setByte b).2.1.pixels (antic.step Board.setByte b).2.2.memory,
    ((antic.step Board.setByte b).2.1.endLine Board.setByte (antic.step Board.setByte b).2.2).1,
    ((antic.step Board.setByte b).2.1.endLine Board.setByte (antic.step Board.setByte b).2.2).2,
    ?_, reached.endLine⟩
  unfold Antic.scanLine
  rw [if_pos (h.dma dma), if_pos h.remaining]
  dsimp only
  rw [if_neg (by rw [goesOn]; exact Bool.false_ne_true)]
  rfl

theorem Reached.scanLine_finish (h : Reached m s 0 antic b) (dma : Video.displayListDma m = true)
    (clear : Clear m s registers) (hl : leg m s = .finish target) :
    ∃ antic' b', antic.scanLine Board.setByte b = (.verticalSync, antic', b') ∧
      Video.displayList b'.memory = target := by
  obtain ⟨ends, cursor⟩ := h.step_finish clear hl
  refine ⟨(antic.step Board.setByte b).2.1, (antic.step Board.setByte b).2.2, ?_, cursor⟩
  unfold Antic.scanLine
  rw [if_pos (h.dma dma), if_pos h.remaining]
  dsimp only
  rw [if_pos ends]

/-! ## Several scan lines -/

theorem linesUpTo_picture {fuel : Nat} {pixels : List Byte} {antic' : Antic} {b' : Board}
    (hs : antic.scanLine Board.setByte b = (.picture pixels, antic', b')) :
    linesUpTo Board.setByte (fuel + 1) antic b =
      (.picture pixels :: (linesUpTo Board.setByte fuel antic' b').1,
        (linesUpTo Board.setByte fuel antic' b').2) := by
  rw [linesUpTo, hs]
  dsimp only
  rw [if_neg ScanLine.noConfusion]

theorem linesUpTo_verticalSync {fuel : Nat} {antic' : Antic} {b' : Board}
    (hs : antic.scanLine Board.setByte b = (.verticalSync, antic', b')) :
    linesUpTo Board.setByte (fuel + 1) antic b = ([.verticalSync], antic', b') := by
  rw [linesUpTo, hs]
  dsimp only
  rw [if_pos rfl]

/-- **A walk that ends in time**: the scan lines are those that it counts, and the vertical sync. -/
theorem Reached.linesUpTo_ends (h : Reached m s left antic b) (fuel : Nat)
    (dma : Video.displayListDma m = true) (clear : Avoids m s registers) (ends : Ends m s n target)
    (time : left + n < fuel) :
    ∃ pictures : List (List Byte), pictures.length = left + n ∧
      (linesUpTo Board.setByte fuel antic b).1 = pictures.map .picture ++ [.verticalSync] ∧
      Video.displayList (linesUpTo Board.setByte fuel antic b).2.2.memory = target := by
  -- Every scan line draws a line that is left, or moves on to the next place of the walk.
  induction fuel generalizing s left n antic b with
  | zero => exact absurd time (Nat.not_lt_zero _)
  | succ fuel ih =>
    cases left with
    | succ left =>
      obtain ⟨pixels, antic', b', hs, reached⟩ := h.scanLine_open dma
      obtain ⟨pictures, hlen, hlines, hcursor⟩ := ih reached clear ends (by omega)
      rw [linesUpTo_picture hs]
      refine ⟨pixels :: pictures, ?_, ?_, hcursor⟩
      · rw [List.length_cons, hlen]
        omega
      · rw [hlines]
        rfl
    | zero =>
      cases ends with
      | finish hl =>
        obtain ⟨antic', b', hs, hcursor⟩ := h.scanLine_finish dma clear.clear hl
        rw [linesUpTo_verticalSync hs]
        exact ⟨[], rfl, rfl, hcursor⟩
      | @lines _ next k n _ hl ends =>
        obtain ⟨k, rfl⟩ := Nat.exists_eq_succ_of_ne_zero (Nat.ne_of_gt (leg_lines_pos hl))
        obtain ⟨pixels, antic', b', hs, reached⟩ := h.scanLine_lines dma clear.clear hl
        obtain ⟨pictures, hlen, hlines, hcursor⟩ := ih reached (clear.next hl) ends (by omega)
        rw [linesUpTo_picture hs]
        refine ⟨pixels :: pictures, ?_, ?_, hcursor⟩
        · rw [List.length_cons, hlen]
          omega
        · rw [hlines]
          rfl

/-- **A walk that does not end in time**: every scan line is a picture. -/
theorem Reached.linesUpTo_overrun (h : Reached m s left antic b) (fuel : Nat)
    (dma : Video.displayListDma m = true) (clear : Avoids m s registers)
    (late : ∀ n target, Ends m s n target → fuel ≤ left + n) :
    ∃ pictures : List (List Byte), pictures.length = fuel ∧
      (linesUpTo Board.setByte fuel antic b).1 = pictures.map .picture := by
  induction fuel generalizing s left antic b with
  | zero => exact ⟨[], rfl, rfl⟩
  | succ fuel ih =>
    cases left with
    | succ left =>
      obtain ⟨pixels, antic', b', hs, reached⟩ := h.scanLine_open dma
      obtain ⟨pictures, hlen, hlines⟩ := ih reached clear fun n t he => by
        have := late n t he
        omega
      rw [linesUpTo_picture hs]
      exact ⟨pixels :: pictures, by rw [List.length_cons, hlen], by rw [hlines]; rfl⟩
    | zero =>
      cases hl : leg m s with
      | finish target =>
        have := late 0 target (.finish hl)
        omega
      | lines k next =>
        obtain ⟨k, rfl⟩ := Nat.exists_eq_succ_of_ne_zero (Nat.ne_of_gt (leg_lines_pos hl))
        obtain ⟨pixels, antic', b', hs, reached⟩ := h.scanLine_lines dma clear.clear hl
        obtain ⟨pictures, hlen, hlines⟩ := ih reached (clear.next hl) fun n t he => by
          have := late _ t (.lines hl he)
          omega
        rw [linesUpTo_picture hs]
        exact ⟨pixels :: pictures, by rw [List.length_cons, hlen], by rw [hlines]; rfl⟩

end DisplayWalk

/-! ## Frames -/

namespace Display

open Antic DisplayWalk

theorem frameLength_append_verticalSync (pictures : List (List Byte)) :
    frameLength (pictures.map .picture ++ [.verticalSync]) = .ok pictures.length := by
  rw [frameLength, List.getLast?_append, if_pos (by rfl)]
  simp

theorem frameLength_pictures (pictures : List (List Byte)) :
    frameLength (pictures.map .picture) = .error ⟨pictures.length⟩ := by
  have hne : (pictures.map ScanLine.picture).getLast? ≠ some .verticalSync := by
    intro h
    obtain ⟨pixels, -, hp⟩ := List.mem_map.mp (List.mem_of_getLast? h)
    cases hp
  rw [frameLength, if_neg hne, List.length_map]

variable {b : Board} {d : Display}

theorem reached_start (idle : d.antic.remaining = 0) (closed : d.antic.scrollRegion = false) :
    Reached b.memory ⟨Video.displayList b.memory, false⟩ 0 d.antic b :=
  ⟨idle, closed, rfl, fun _ _ => rfl⟩

/-- **A frame is the walk through its display list**, from a start without an open scroll region, when
the registers of the coprocessor have no hooks and the list does not lie in them. A walk that ends
within 312 scan lines gives these, the vertical sync, and the cursor at the target of the last jump;
any other gives 313 scan lines and no vertical sync. -/
theorem frame_of_walk (hooks : ∀ a ∈ registers, b.hooks.on a = [])
    (dma : Video.displayListDma b.memory = true) (idle : d.antic.remaining = 0)
    (closed : d.antic.scrollRegion = false)
    (clear : Avoids b.memory ⟨Video.displayList b.memory, false⟩ registers) :
    (∀ n target, Ends b.memory ⟨Video.displayList b.memory, false⟩ n target → n ≤ maxLines →
      (d.frame Board.store b).1 = .ok n ∧
      (∃ pictures : List (List Byte), pictures.length = n ∧
        (d.antic.frame Board.store b).1 = pictures.map .picture ++ [.verticalSync] ∧
        (d.frame Board.store b).2.1.screen =
          (pictures.map ScanLine.picture ++ [ScanLine.verticalSync]).foldl Screen.present d.screen) ∧
      Video.displayList (d.frame Board.store b).2.2.memory = target) ∧
    ((∀ n target, Ends b.memory ⟨Video.displayList b.memory, false⟩ n target → maxLines < n) →
      (d.frame Board.store b).1 = .error ⟨maxLines + 1⟩ ∧
      ∃ pictures : List (List Byte), pictures.length = maxLines + 1 ∧
        (d.antic.frame Board.store b).1 = pictures.map .picture ∧
        (d.frame Board.store b).2.1.screen = (pictures.map ScanLine.picture).foldl Screen.present d.screen) := by
  have start := reached_start (b := b) idle closed
  have plain : d.antic.frame Board.store b = d.antic.frame Board.setByte b :=
    linesUpTo_plain (plain_storeWithin hooks Board.nesting) rfl d.antic (maxLines + 1)
  unfold Display.frame
  rw [plain]
  refine ⟨fun n target ends time => ?_, fun late => ?_⟩
  · obtain ⟨pictures, hlen, hlines, hcursor⟩ :=
      start.linesUpTo_ends (maxLines + 1) dma clear ends (by omega)
    rw [Nat.zero_add] at hlen
    refine ⟨?_, ⟨pictures, hlen, hlines, ?_⟩, hcursor⟩
    · show frameLength (linesUpTo Board.setByte (maxLines + 1) d.antic b).1 = _
      rw [hlines, frameLength_append_verticalSync, hlen]
    · rw [← hlines]
      rfl
  · obtain ⟨pictures, hlen, hlines⟩ :=
      start.linesUpTo_overrun (maxLines + 1) dma clear fun n target ends => by
        have := late n target ends
        omega
    refine ⟨?_, pictures, hlen, hlines, ?_⟩
    · show frameLength (linesUpTo Board.setByte (maxLines + 1) d.antic b).1 = _
      rw [hlines, frameLength_pictures, hlen]
    · rw [← hlines]
      rfl

/-- Eight blank scan lines and the end of the frame, in a display list at the start of memory. -/
def blankList : Board := ((Board.setByte {} Control.dmactl 0x20).setByte 0 0x70).setByte 1 0x41

theorem frame_of_blankList :
    Avoids blankList.memory ⟨Video.displayList blankList.memory, false⟩ registers ∧
      (frame Board.store (Display.on (.recorder {})) blankList).1 = .ok 8 := by
  have first : leg blankList.memory ⟨0, false⟩ = .lines 8 ⟨1, false⟩ := by decide
  have second : leg blankList.memory ⟨1, false⟩ = .finish 0 := by decide
  have clear : Avoids blankList.memory ⟨Video.displayList blankList.memory, false⟩ registers := by
    intro spot visits
    cases visits with
    | here => decide
    | lines hl visits =>
      cases first.symm.trans hl
      cases visits with
      | here => decide
      | lines hl _ => cases second.symm.trans hl
  exact ⟨clear, ((frame_of_walk (d := .on (.recorder {})) (fun _ _ => rfl) (by decide) rfl rfl
    clear).1 8 0 (.lines first (.finish second)) (by decide)).1⟩

end Display

end Atari
