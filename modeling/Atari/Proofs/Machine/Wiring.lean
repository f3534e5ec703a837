import Atari.Machine.Basic
import Atari.Proofs.Antic.Registers
import Atari.Proofs.Antic.Request

/-!
# The board of a machine

The only hook on the board of a machine is that of its display, which draws a scan line when a byte is
stored at `WSYNC`. An interrupt that the scan line asks for then waits at the display.

* `Board.Wired`: the board of a machine with or without a display;
* `Board.request?`: the interrupt that waits; `Board.emptied`: the board when none does;
* **`Board.Wired.store`**: what a store does to the wiring and to the interrupt that waits;
* **`Board.Wired.spun`**: the same for a scan line that the machine draws itself.
-/

namespace Atari

open Machine (display)

namespace Board

/-- The board of a machine. The hook of the display is the only one. -/
structure Wired (b : Board) (d? : Option Display) : Prop where
  hooks : b.hooks.entries = d?.toList.map fun _ => (Control.wsync, .waitSync display)
  displays : b.displays.toList = d?.toList.map some

/-- The interrupt that waits at the display of a machine. -/
def request? (b : Board) : Option InterruptSource := (b.takeRequest display).1

/-- The board with no interrupt that waits. -/
def emptied (b : Board) : Board := (b.takeRequest display).2

/-- The board behind a scan line that the machine draws itself. -/
def spun (b : Board) : Board :=
  match b.scanLine display with
  | some (_, b) => b
  | none => b

variable {b c : Board} {d? : Option Display} {d : Display}

/-! ## What waits -/

namespace Wired

theorem display_eq (h : b.Wired d?) : b.display? display = d? := by
  unfold display?
  rw [← Array.getElem?_toList, h.displays]
  cases d? <;> rfl

theorem request_eq (h : b.Wired d?) : b.request? = d?.bind (·.antic.request) := by
  unfold request? takeRequest
  rw [h.display_eq]
  cases d? <;> rfl

theorem of_eq (h : b.Wired d?) (hooks : c.hooks = b.hooks) (displays : c.displays = b.displays) :
    c.Wired d? := ⟨hooks ▸ h.hooks, displays ▸ h.displays⟩

theorem displays_giveBack (h : b.Wired (some d)) (displays : c.displays = (b.lend display).displays)
    (e : Display) : (c.giveBack display e).displays.toList = [some e] := by
  show (c.displays.setIfInBounds display (some e)).toList = _
  rw [displays]
  show ((b.displays.setIfInBounds display none).setIfInBounds display (some e)).toList = _
  rw [Array.toList_setIfInBounds, Array.toList_setIfInBounds, h.displays]
  rfl

theorem emptied_eq (h : b.Wired (some d)) : b.emptied = b.giveBack display d.takeRequest.2 := by
  unfold Board.emptied takeRequest
  rw [h.display_eq]

theorem emptied_eq_self (h : b.Wired none) : b.emptied = b := by
  unfold Board.emptied takeRequest
  rw [h.display_eq]

theorem emptied (h : b.Wired d?) : b.emptied.Wired (d?.map fun d => d.takeRequest.2) := by
  cases d? with
  | none =>
    rw [h.emptied_eq_self]
    exact h
  | some d =>
    rw [h.emptied_eq]
    refine ⟨h.hooks, ?_⟩
    show (b.displays.setIfInBounds display _).toList = _
    rw [Array.toList_setIfInBounds, h.displays]
    rfl

theorem stop_emptied (h : b.Wired d?) : b.emptied.stop = b.stop := by
  cases d? with
  | none => rw [h.emptied_eq_self]
  | some d =>
    rw [h.emptied_eq]
    rfl

theorem request_emptied (h : b.Wired d?) : b.emptied.request? = none := by
  rw [h.emptied.request_eq]
  cases d? <;> rfl

theorem on_eq_nil (h : b.Wired d?) {a : Address} (ha : a = Control.wsync → d? = none) :
    b.hooks.on a = [] := by
  unfold Hooks.on
  rw [h.hooks]
  cases d? with
  | none => rfl
  | some d =>
    have hne : ¬decide (Control.wsync = a) = true := fun e => nomatch ha (of_decide_eq_true e).symm
    show (([(Control.wsync, Hook.waitSync display)].filter fun e => decide (e.1 = a)).map (·.2)) = []
    rw [List.filter_cons_of_neg (by exact hne)]
    rfl

end Wired

theorem lend_giveBack (b : Board) (i : Nat) (d : Display) : (b.giveBack i d).lend i = b.lend i := by
  show { b with displays := (b.displays.setIfInBounds i _).setIfInBounds i none } = _
  rw [Array.setIfInBounds_setIfInBounds]
  rfl

/-! ## Stores -/

/-- What a change of a wired board does to its wiring. An interrupt that it asks for takes the place of
the one that waits. -/
structure Draws (f : Board → Board) (b : Board) (d? : Option Display) : Prop where
  wired : ∃ e? : Option Display, (f b).Wired e? ∧ e?.isSome = d?.isSome
  stop : (f b).stop = b.stop
  request : (f b).request? = (f b.emptied).request?.or b.request?

namespace Wired

/-- The board while the hook of the display runs for a byte at `WSYNC`. -/
def hooked (b : Board) (v : Byte) : Board :=
  ({ b.setByte Control.wsync v with hooks := b.hooks.detach Control.wsync } : Board).lend display

theorem hooked_giveBack (b : Board) (v : Byte) (d : Display) :
    hooked (b.giveBack display d) v = hooked b v :=
  lend_giveBack { b.setByte Control.wsync v with hooks := b.hooks.detach Control.wsync } display d

theorem hooked_hooks (h : b.Wired (some d)) (v : Byte) : (hooked b v).hooks = {} := by
  show b.hooks.detach Control.wsync = {}
  unfold Hooks.detach
  rw [h.hooks]
  rfl

theorem hooked_on (h : b.Wired (some d)) (v : Byte) (a : Address) : (hooked b v).hooks.on a = [] := by
  rw [hooked_hooks h]
  rfl

theorem storeWithin_wsync (h : b.Wired (some d)) (depth : Nat) (v : Byte) :
    storeWithin (depth + 1) b Control.wsync v =
      let drawn := (d.scanLine Board.setByte (hooked b v)).2
      { drawn.2.giveBack display drawn.1 with
        hooks := drawn.2.hooks.restore Control.wsync [.waitSync display] } := by
  have on : (b.setByte Control.wsync v).hooks.on Control.wsync = [.waitSync display] := by
    rw [setByte_hooks]
    unfold Hooks.on
    rw [h.hooks]
    rfl
  have plain : d.antic.scanLine (storeWithin depth) (hooked b v) =
      d.antic.scanLine Board.setByte (hooked b v) :=
    Antic.scanLine_plain (Antic.plain_storeWithin (fun a _ => hooked_on h v a) depth) rfl d.antic
  have called := call_waitSync (storeWithin depth)
    (b := { b.setByte Control.wsync v with hooks := b.hooks.detach Control.wsync })
    h.display_eq Control.wsync v
  have scanned : d.scanLine (storeWithin depth) (hooked b v) =
      d.scanLine Board.setByte (hooked b v) := by
    unfold Display.scanLine
    rw [plain]
  unfold hooked at scanned
  rw [scanned] at called
  rw [storeWithin.eq_def]
  dsimp only
  rw [on]
  exact congrArg (fun c : Board =>
    { c with hooks := c.hooks.restore Control.wsync [.waitSync display] }) called

theorem store_wsync (h : b.Wired (some d)) (v : Byte) :
    (b.store Control.wsync v).Wired (some (d.scanLine Board.setByte (hooked b v)).2.1) ∧
      (b.store Control.wsync v).stop = b.stop := by
  have leaves := Antic.leaves_scanLine d.antic (hooked b v)
  rw [show b.store Control.wsync v = _ from h.storeWithin_wsync 65535 v]
  refine ⟨⟨?_, ?_⟩, ?_⟩
  · show (((d.scanLine Board.setByte (hooked b v)).2.2.hooks).restore Control.wsync _).entries = _
    rw [show (d.scanLine Board.setByte (hooked b v)).2.2.hooks = {} from
      leaves.hooks.trans (hooked_hooks h v)]
    rfl
  · exact h.displays_giveBack leaves.displays _
  · exact leaves.stop

theorem store_plain (h : b.Wired d?) {a : Address} (ha : a = Control.wsync → d? = none) (v : Byte) :
    (b.store a v).Wired d? ∧ (b.store a v).stop = b.stop := by
  rw [store_of_on_eq_nil (h.on_eq_nil ha)]
  exact ⟨h.of_eq rfl rfl, rfl⟩

/-- **A store keeps the wiring of a board**, and may draw a scan line. -/
theorem store (h : b.Wired d?) (a : Address) (v : Byte) : Draws (·.store a v) b d? := by
  by_cases ha : a = Control.wsync → d? = none
  · obtain ⟨wired, stop⟩ := h.store_plain ha v
    have emptied := (h.emptied.store_plain (fun e => by rw [ha e]; rfl) v).1
    refine ⟨⟨d?, wired, rfl⟩, stop, ?_⟩
    show (b.store a v).request? = (b.emptied.store a v).request?.or b.request?
    rw [wired.request_eq, emptied.request_eq, ← h.emptied.request_eq, h.request_emptied, h.request_eq,
      Option.none_or]
  · obtain ⟨rfl, hd⟩ := Classical.not_imp.mp ha
    obtain ⟨d, rfl⟩ := Option.ne_none_iff_exists'.mp hd
    obtain ⟨wired, stop⟩ := h.store_wsync v
    have emptied := (h.emptied.store_wsync v).1
    rw [h.emptied_eq, hooked_giveBack, ← h.emptied_eq] at emptied
    refine ⟨⟨_, wired, rfl⟩, stop, ?_⟩
    show (b.store Control.wsync v).request? = (b.emptied.store Control.wsync v).request?.or b.request?
    rw [wired.request_eq, emptied.request_eq, h.request_eq]
    exact Antic.request_scanLine Board.setByte d.antic (hooked b v)

theorem spun_eq (h : b.Wired (some d)) :
    b.spun = (d.scanLine Board.setByte (b.lend display)).2.2.giveBack display
      (d.scanLine Board.setByte (b.lend display)).2.1 := by
  have free : ∀ a ∈ Antic.registers, b.hooks.on a = [] := by
    intro a ha
    refine h.on_eq_nil fun e => ?_
    rw [e] at ha
    exact absurd ha (by decide)
  have plain : d.antic.scanLine Board.store (b.lend display) =
      d.antic.scanLine Board.setByte (b.lend display) :=
    Antic.scanLine_plain (b := b.lend display) (Antic.plain_storeWithin free nesting) rfl d.antic
  unfold Board.spun Board.scanLine
  rw [withDisplay_scanLine h.display_eq]
  unfold Display.scanLine
  rw [plain]

theorem spun_wired (h : b.Wired (some d)) :
    b.spun.Wired (some (d.scanLine Board.setByte (b.lend display)).2.1) ∧ b.spun.stop = b.stop := by
  have leaves := Antic.leaves_scanLine d.antic (b.lend display)
  rw [h.spun_eq]
  refine ⟨⟨?_, h.displays_giveBack leaves.displays _⟩, leaves.stop⟩
  show (d.scanLine Board.setByte (b.lend display)).2.2.hooks.entries = _
  rw [show (d.scanLine Board.setByte (b.lend display)).2.2.hooks = b.hooks from leaves.hooks, h.hooks]
  rfl

theorem spun_eq_self (h : b.Wired none) : b.spun = b := by
  unfold Board.spun Board.scanLine withDisplay
  rw [h.display_eq]

/-- **A scan line that the machine draws keeps the wiring of a board.** -/
theorem spun (h : b.Wired d?) : Draws Board.spun b d? := by
  cases d? with
  | none =>
    have idle := h.spun_eq_self
    refine ⟨⟨none, idle.symm ▸ h, rfl⟩, by rw [idle], ?_⟩
    rw [h.emptied_eq_self, idle, h.request_eq]
    rfl
  | some d =>
    obtain ⟨wired, stop⟩ := h.spun_wired
    have emptied := h.emptied.spun_wired.1
    rw [h.emptied_eq, lend_giveBack, ← h.emptied_eq] at emptied
    refine ⟨⟨_, wired, rfl⟩, stop, ?_⟩
    rw [wired.request_eq, emptied.request_eq, h.request_eq]
    exact Antic.request_scanLine Board.setByte d.antic (b.lend display)

end Wired

/-! ## What is asked for -/

/-- The interrupt that a change of a board asks for: the one that waits behind it when none waited
before. -/
def asked (b : Board) (f : Board → Board) : List InterruptSource := (f b.emptied).request?.toList

/-- The interrupts that stores ask for, in their order. -/
def askedByStores : Board → List (Address × Byte) → List InterruptSource
  | _, [] => []
  | b, w :: writes => b.asked (·.store w.1 w.2) ++ (b.store w.1 w.2).askedByStores writes

/-- **Stores keep the wiring of a board.** The interrupt that waits behind them is the last one that
they asked for, or else the one that waited before. -/
theorem Wired.storeList (h : b.Wired d?) (writes : List (Address × Byte)) :
    (∃ e? : Option Display, (b.storeList writes).Wired e? ∧ e?.isSome = d?.isSome) ∧
      (b.storeList writes).stop = b.stop ∧
      (b.storeList writes).request? = (b.askedByStores writes).getLast?.or b.request? := by
  induction writes generalizing b d? with
  | nil => exact ⟨⟨d?, h, rfl⟩, rfl, rfl⟩
  | cons w writes ih =>
    obtain ⟨⟨e?, wired, shown⟩, stop, request⟩ := h.store w.1 w.2
    obtain ⟨⟨g?, wired', shown'⟩, stop', request'⟩ := ih wired
    refine ⟨⟨g?, wired', shown'.trans shown⟩, stop'.trans stop, ?_⟩
    have last (r : Option InterruptSource) : r.toList.getLast? = r := by
      cases r <;> rfl
    rw [storeList_cons, request', request, askedByStores, List.getLast?_append, Option.or_assoc, asked,
      last]

theorem length_asked_le (b : Board) (f : Board → Board) : (b.asked f).length ≤ 1 := by
  unfold asked
  cases (f b.emptied).request? with
  | none => exact Nat.zero_le 1
  | some source => exact Nat.le_refl 1

theorem Wired.askedByStores_eq_nil (h : b.Wired d?) {writes : List (Address × Byte)}
    (apart : ∀ w ∈ writes, w.1 ≠ Control.wsync) : b.askedByStores writes = [] := by
  induction writes generalizing b with
  | nil => rfl
  | cons w writes ih =>
    have ha : w.1 ≠ Control.wsync := apart w List.mem_cons_self
    have idle : b.asked (·.store w.1 w.2) = [] := by
      unfold asked
      rw [(h.emptied.store_plain (fun e => absurd e ha) w.2).1.request_eq, ← h.emptied.request_eq,
        h.request_emptied]
      rfl
    rw [askedByStores, idle, List.nil_append]
    exact ih (h.store_plain (fun e => absurd e ha) w.2).1 fun w hw => apart w (List.mem_cons_of_mem _ hw)

end Board

end Atari
