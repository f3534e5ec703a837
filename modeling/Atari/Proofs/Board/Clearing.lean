import Atari.Proofs.Board.Registry

/-!
# Hooks that are taken away

Taking the hooks of an address away takes those that are attached. Those that are away at this point, because
one of them runs, come back when the last one of them has returned. So they are taken away for good exactly if
the address is not being served.

* **`Board.clears_last`**: what is left of the hooks of an address that were taken away.
-/

namespace Atari

namespace Board

open Registry

/-- **What is left of the hooks of an address that were taken away**, whoever did so and whatever else was
asked of the bus before and behind, as long as no hooks are registered there any more. The number that is told
is that of the hooks that are attached. If the address was not being served then, it has no hooks in the end and
bytes that are stored there call none. Otherwise the hooks that were away come back: in the end they are attached,
and a byte that is stored there meanwhile finds those that have come back already. -/
theorem clears_last {depth : Nat} {s : Script} {b : Board} {before after : List Deed} {a : Address}
    (fits : (s.run (storeWithin depth) b).overrun = false)
    (split : s.deeds (storeWithin depth) (deedsWithin depth) b = before ++ .cleared a :: after)
    (registers : ∀ hook, .attached a hook ∉ after) :
    (∀ store rest (d : Board), (Script.clear a rest).run store d = (rest (d.clear a).1).run store (d.clear a).2 ∧
      (d.clear a).1 = d.hooks.count a ∧ (d.clear a).2 = { d with hooks := d.hooks.detach a } ∧
      ∀ x, (d.clear a).2.hooks.on x = if x = a then [] else d.hooks.on x) ∧
    ∃ now behind, Runs ⟨b.hooks, []⟩ before now ∧ Next now (.cleared a) behind ∧
      (a ∉ now.serving → (s.run (storeWithin depth) b).hooks.count a = 0 ∧
        (∀ v hooks, .stored a v hooks ∈ after → hooks = []) ∧ ∀ hook v m, .called hook a v m ∉ after) ∧
      (.cleared a ∉ after → (s.run (storeWithin depth) b).hooks.on a = away a now.services ∧
        ((s.run (storeWithin depth) b).hooks.count a = 0 ↔ a ∉ now.serving)) ∧
      ∀ between v hooks rest, after = between ++ .stored a v hooks :: rest → .cleared a ∉ between →
        ∃ later, Runs behind between later ∧ away a later.services ++ hooks = away a now.services := by
  have runs := script_runs fits
  rw [split] at runs
  obtain ⟨now, first, rest⟩ := runs.split
  cases rest with | @cons _ behind _ _ _ next second =>
  have attached (hooks : List Hook) (h : Registry.all ⟨(s.run (storeWithin depth) b).hooks, []⟩ a = hooks) :
      (s.run (storeWithin depth) b).hooks.on a = hooks := h
  refine ⟨fun store rest d => ⟨rfl, rfl, rfl, fun x => Hooks.on_detach ..⟩, now, behind, first, next,
    fun idle => ?_, fun clears => ?_, fun between v hooks rest later clears => ?_⟩
  · obtain ⟨kept, stored, called⟩ := second.none registers (next.cleared.trans (away_eq_nil_iff.mpr idle))
    refine ⟨?_, stored, called⟩
    rw [Hooks.count, attached [] kept]
    rfl
  · have left := attached _ ((second.all registers clears).trans next.cleared)
    refine ⟨left, ?_⟩
    rw [Hooks.count, left, List.length_eq_zero_iff, away_eq_nil_iff, serving]
  · subst later
    obtain ⟨later, between', rest'⟩ := second.split
    cases rest' with | cons found _ =>
    refine ⟨later, between', ?_⟩
    rw [← found.stored, ← next.cleared]
    exact between'.all (fun hook mem => registers hook (List.mem_append_left _ mem)) clears

/-- A byte stored at `0x0010`. -/
def storeOnce : Script := .poke 0x0010 [1] fun _ => .stop

/-- A board with a hook that stores a byte at a second address, whose hook takes the first one away. -/
def outdone : Board where
  hooks := ⟨[(0x0010, .script fun _ v => .poke 0x0020 [v] fun _ => .stop),
    (0x0020, .script fun _ _ => .clear 0x0010 fun _ => .stop)]⟩

/-- The first address is being served when its hook is taken away, so this comes back. -/
theorem clears_last_outdone :
    let store := storeWithin 2
    (storeOnce.run store outdone).overrun = false ∧
      ∃ before, storeOnce.deeds store (deedsWithin 2) outdone =
          before ++ .cleared 0x0010 :: [.returned, .returned] ∧
        ∃ now, Runs ⟨outdone.hooks, []⟩ before now ∧ 0x0010 ∈ now.serving ∧
          (storeOnce.run store outdone).hooks.on 0x0010 = away 0x0010 now.services := by
  have fits : (storeOnce.run (storeWithin 2) outdone).overrun = false := by decide +kernel
  have split : storeOnce.deeds (storeWithin 2) (deedsWithin 2) outdone =
      [.stored 0x0010 1 _, .called _ 0x0010 1 _, .stored 0x0020 1 _, .called _ 0x0020 1 _] ++
        .cleared 0x0010 :: [.returned, .returned] := rfl
  obtain ⟨-, now, _, first, -, -, left, -⟩ := clears_last fits split (by simp)
  obtain ⟨on, count⟩ := left (by simp)
  have there : (storeOnce.run (storeWithin 2) outdone).hooks.count 0x0010 ≠ 0 := by decide +kernel
  exact ⟨fits, _, split, now, first, Classical.not_not.mp fun idle => there (count.mpr idle), on⟩

/-- A hook that takes the hooks of its own address away. -/
def clearing : Hook := .script fun a _ => .clear a fun _ => .stop

/-- Such a hook takes itself away, and no other one is registered. But then it is there, and the next byte
calls it. -/
theorem clear_undone :
    let b : Board := { hooks := ⟨[(0x0010, clearing)]⟩ }
    let c := storeOnce.run (storeWithin nesting) b
    storeOnce.deeds (storeWithin nesting) (deedsWithin nesting) b =
        [.stored 0x0010 1 [clearing], .called clearing 0x0010 1 (b.memory.set 0x0010 1)] ++
          .cleared 0x0010 :: [.returned] ∧
      c.hooks.count 0x0010 = 1 ∧
      deedsWithin nesting c 0x0010 2 = [.stored 0x0010 2 [clearing],
        .called clearing 0x0010 2 (c.memory.set 0x0010 2), .cleared 0x0010, .returned] := by
  intro b c
  have on : b.hooks.on 0x0010 ≠ [] := List.cons_ne_nil clearing []
  have kept : c.hooks = b.hooks := (congrArg hooks (storeWithin_of_on_ne_nil on 65535 1)).trans rfl
  unfold nesting deedsWithin
  rw [kept]
  exact ⟨rfl, rfl, rfl⟩

end Board

end Atari
