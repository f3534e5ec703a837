import Atari.Proofs.Board.Deeds

/-!
# What stays true while hooks run

Something that is true of a board, and of what happened by then, stays true while a script runs or a display
draws if each thing that they do to the hooks and each store keeps it. Two ways to store that do the same as
long as it is true then do the same all the time.

* `Script.AttachesNone`, `Hook.AttachesNone`: scripts and hooks that register no hook;
* `Board.Sustained`: something that stays true, whatever is done to the hooks;
* **`Board.Sustained.script`**, **`Board.Sustained.calls`**: it stays true while a script runs and while hooks
  are called.
-/

namespace Atari

/-- A script that registers no hook. -/
def Script.AttachesNone : Script → Prop
  | .stop => True
  | .peek _ rest => ∀ v, (rest v).AttachesNone
  | .poke _ _ rest => ∀ r, (rest r).AttachesNone
  | .count _ rest => ∀ n, (rest n).AttachesNone
  | .clear _ rest => ∀ n, (rest n).AttachesNone
  | .attach _ _ _ => False
  | .report _ rest => rest.AttachesNone

/-- A hook that registers no hook. -/
def Hook.AttachesNone : Hook → Prop
  | .script run => ∀ a v, (run a v).AttachesNone
  | .waitSync _ => True

namespace Board

/-- Something that is true of what happened so far and of the board then, and stays so, whatever happens. The
registrations of hooks are among this only if there are some. As long as it is true, two ways to store do
the same. -/
structure Sustained (store other : Store) (during also : Board → Address → Byte → List Deed)
    (registrations : Prop) (I : List Deed → Board → Prop) : Prop where
  same {past : List Deed} {b c : Board} : I past b → c.hooks = b.hooks → c.overrun = b.overrun → I past c
  attach {past : List Deed} {b : Board} : registrations → I past b → ∀ a hook,
    I (past ++ [.attached a hook]) { b with hooks := b.hooks.attach a hook }
  clear {past : List Deed} {b : Board} : I past b → ∀ a,
    I (past ++ [.cleared a]) { b with hooks := b.hooks.detach a }
  draw {past : List Deed} {b : Board} : I past b → ∀ i, I (past ++ [.drawn i]) b
  stores {past : List Deed} {b : Board} : I past b → ∀ a v, I (past ++ during b a v) (store b a v)
  agree {past : List Deed} {b : Board} : I past b → ∀ a v,
    other b a v = store b a v ∧ also b a v = during b a v

namespace Sustained

variable {store other : Store} {during also : Board → Address → Byte → List Deed} {registrations : Prop}
  {I : List Deed → Board → Prop} (h : Sustained store other during also registrations I)
  {past : List Deed} {b : Board}

include h

theorem storeAll (i : I past b) (a : Address) (data : List Byte) :
    I (past ++ b.allDeeds store during a data) (b.storeAll store a data) ∧
      b.storeAll other a data = b.storeAll store a data ∧
      b.allDeeds other also a data = b.allDeeds store during a data := by
  induction data generalizing past b a with
  | nil => exact ⟨(List.append_nil past).symm ▸ i, rfl, rfl⟩
  | cons v data ih =>
    obtain ⟨stored, told⟩ := h.agree i a v
    obtain ⟨kept, rest, meanwhile⟩ := ih (h.stores i a v) (a + 1)
    refine ⟨?_, ?_, ?_⟩
    · rwa [List.append_assoc] at kept
    · rw [Board.storeAll, stored, rest, Board.storeAll]
    · rw [allDeeds, told, stored, meanwhile, allDeeds]

theorem program {α : Type} (x : Program α) (i : I past b) :
    I (past ++ x.deeds store during b) (x.run store b).2 ∧ x.run other b = x.run store b ∧
      x.deeds other also b = x.deeds store during b := by
  induction x generalizing past b with
  | done x => exact ⟨(List.append_nil past).symm ▸ i, rfl, rfl⟩
  | look rest ih => exact ih b.memory i
  | note level body rest ih => exact ih (h.same i (b.note_hooks level body) (b.note_overrun level body))
  | store a v rest ih =>
    obtain ⟨stored, told⟩ := h.agree i a v
    obtain ⟨kept, ran, meanwhile⟩ := ih (h.stores i a v)
    refine ⟨?_, ?_, ?_⟩
    · rwa [List.append_assoc] at kept
    · rw [Program.run, stored, ran, Program.run]
    · rw [Program.deeds, told, stored, meanwhile, Program.deeds]

/-- **It stays true while a script runs.** -/
theorem script {s : Script} (registers : s.AttachesNone ∨ registrations) (i : I past b) :
    I (past ++ s.deeds store during b) (s.run store b) ∧ s.run other b = s.run store b ∧
      s.deeds other also b = s.deeds store during b := by
  induction s generalizing past b with
  | stop => exact ⟨(List.append_nil past).symm ▸ i, rfl, rfl⟩
  | peek a rest ih => exact ih _ (registers.imp_left fun none => none _) i
  | poke a data rest ih =>
    by_cases fits : a.toNat + data.length ≤ Memory.size
    · obtain ⟨kept, stored, told⟩ := h.storeAll i a data
      obtain ⟨last, ran, meanwhile⟩ := ih (.ok ()) (registers.imp_left fun none => none _) kept
      unfold Script.run Script.deeds pokeWith
      simp only [if_pos fits, stored, told, ran, meanwhile]
      rw [List.append_assoc] at last
      exact ⟨last, trivial, trivial⟩
    · unfold Script.run Script.deeds pokeWith
      simp only [if_neg fits]
      exact ih _ (registers.imp_left fun none => none _) i
  | count a rest ih => exact ih _ (registers.imp_left fun none => none _) i
  | clear a rest ih =>
    obtain ⟨last, ran, meanwhile⟩ := ih _ (registers.imp_left fun none => none _) (h.clear i a)
    rw [List.append_assoc] at last
    exact ⟨last, ran, congrArg _ meanwhile⟩
  | attach a hook rest _ ih =>
    have allowed : registrations := registers.resolve_left id
    obtain ⟨last, ran, meanwhile⟩ := ih (.inr allowed) (h.attach allowed i a (.script hook))
    rw [List.append_assoc] at last
    exact ⟨last, ran, congrArg _ meanwhile⟩
  | report e rest ih => exact ih registers (h.same i rfl rfl)

/-- **It stays true while a hook runs.** -/
theorem call {hook : Hook} (registers : hook.AttachesNone ∨ registrations) (i : I past b) (a : Address)
    (v : Byte) :
    I (past ++ hook.deeds store during a v b) (hook.call store a v b) ∧
      hook.call other a v b = hook.call store a v b ∧
      hook.deeds other also a v b = hook.deeds store during a v b := by
  cases hook with
  | script run => exact h.script (registers.imp_left fun none => none a v) i
  | waitSync n =>
    cases shown : b.display? n with
    | none =>
      have away : ∀ store during, (Hook.waitSync n).deeds store during a v b = [] := fun store during => by
        simp only [Hook.deeds, lineDeeds, shown]
      rw [call_waitSync_away store shown, call_waitSync_away other shown, away, away, List.append_nil]
      exact ⟨h.same i (b.note_hooks ..) (b.note_overrun ..), rfl, rfl⟩
    | some d =>
      have drawing : ∀ store during, (Hook.waitSync n).deeds store during a v b =
          .drawn n :: (Program.scanLine d.antic).deeds store during (b.lend n) := fun store during => by
        simp only [Hook.deeds, lineDeeds, shown]
      have lent : I (past ++ [.drawn n]) (b.lend n) := h.same (h.draw i n) rfl rfl
      obtain ⟨kept, ran, meanwhile⟩ := h.program (Program.scanLine d.antic) lent
      rw [List.append_assoc] at kept
      rw [call_waitSync store shown, call_waitSync other shown, drawing, drawing, meanwhile]
      unfold Display.scanLine
      simp only [Program.scanLine_eq, ran]
      exact ⟨h.same kept rfl rfl, trivial, trivial⟩

/-- It stays true while hooks are called one after the other, if calling one and returning from it keeps
it, too. -/
theorem calls (called : ∀ {past : List Deed} {b : Board}, I past b → ∀ hook : Hook, ∀ a v,
      I (past ++ [.called hook a v b.memory]) b)
    (returned : ∀ {past : List Deed} {b : Board}, I past b → I (past ++ [.returned]) b)
    {hooks : List Hook} (register : ∀ hook ∈ hooks, hook.AttachesNone ∨ registrations) (i : I past b)
    (a : Address) (v : Byte) :
    I (past ++ callDeeds store during a v hooks b) (hooks.foldl (fun b hook => hook.call store a v b) b) ∧
      hooks.foldl (fun b hook => hook.call other a v b) b =
        hooks.foldl (fun b hook => hook.call store a v b) b ∧
      callDeeds other also a v hooks b = callDeeds store during a v hooks b := by
  induction hooks generalizing past b with
  | nil => exact ⟨(List.append_nil past).symm ▸ i, rfl, rfl⟩
  | cons hook hooks ih =>
    obtain ⟨kept, ran, told⟩ := h.call (register hook List.mem_cons_self) (called i hook a v) a v
    obtain ⟨last, rest, meanwhile⟩ :=
      ih (fun hook mem => register hook (List.mem_cons_of_mem _ mem)) (returned kept)
    refine ⟨?_, ?_, ?_⟩
    · simp only [List.append_assoc, List.cons_append, List.nil_append] at last
      exact last
    · rw [List.foldl_cons, List.foldl_cons, ran, rest]
    · rw [callDeeds, callDeeds, told, ran, meanwhile]

end Sustained

end Board

end Atari
