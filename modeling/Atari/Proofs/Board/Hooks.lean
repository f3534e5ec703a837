import Atari.Board.Basic

/-!
# Hooks on a board

Hooks of an address behind a change of the registry, and hooks that take no hooks away. A script that
never does so, and registers only such scripts, stays that way, whatever it reads.

* `Hooks.Forall`: registries with hooks of one kind;
* `Script.Keeps`, `Hook.Keeps`: scripts and hooks that take no hooks away;
* `Board.KeepsHooks`: a board with such hooks alone, with `Board.KeepsHooks.attach` and so on.
-/

namespace Atari

namespace Hooks

variable {η : Type} (h : Hooks η) (a c : Address)

theorem length_on : (h.on a).length = (h.entries.map (·.1)).count a := by
  rw [on, List.length_map, ← List.countP_eq_length_filter, List.count, List.countP_map]
  rfl

theorem on_append (entries others : List (Address × η)) :
    (⟨entries ++ others⟩ : Hooks η).on a = (⟨entries⟩ : Hooks η).on a ++ (⟨others⟩ : Hooks η).on a := by
  simp [on]

theorem on_detach : (h.detach a).on c = if c = a then [] else h.on c := by
  unfold on detach
  rw [List.filter_filter]
  split
  · rename_i same
    simp [same]
  · rename_i apart
    congr 2
    funext e
    by_cases he : e.1 = c
    · simp [he, apart]
    · simp [he]

theorem on_map (hooks : List η) :
    (⟨hooks.map (a, ·)⟩ : Hooks η).on c = if c = a then hooks else [] := by
  induction hooks with
  | nil => simp [on]
  | cons hook hooks ih =>
    simp only [on, List.map_cons] at ih ⊢
    by_cases same : c = a
    · simp_all
    · simp_all [Ne.symm same]

theorem on_restore (hooks : List η) :
    (h.restore a hooks).on c = if c = a then hooks ++ h.on a else h.on c := by
  rw [restore, on_append, on_map, on_detach]
  split <;> simp

theorem on_attach (hook : η) :
    (h.attach a hook).on c = h.on c ++ if c = a then [hook] else [] := by
  rw [attach, on_append]
  exact congrArg _ (on_map a c [hook])

theorem mem_addresses : c ∈ h.addresses ↔ h.on c ≠ [] := by
  rw [addresses, List.mem_mergeSort, List.mem_eraseDups, ← List.count_pos_iff, ← length_on,
    List.length_pos_iff]

/-! ## Hooks of one kind -/

/-- All hooks are like this. -/
def Forall (P : η → Prop) (h : Hooks η) : Prop := ∀ e ∈ h.entries, P e.2

namespace Forall

variable {P : η → Prop} {h} (k : h.Forall P)

include k

theorem on : ∀ hook ∈ h.on a, P hook := by
  intro hook mem
  obtain ⟨e, he, rfl⟩ := List.mem_map.mp mem
  exact k e (List.mem_filter.mp he).1

theorem attach {hook : η} (like : P hook) : (h.attach a hook).Forall P := by
  intro e he
  obtain he | he := List.mem_append.mp he
  · exact k e he
  · rw [List.mem_singleton.mp he]
    exact like

theorem detach : (h.detach a).Forall P := fun e he => k e (List.mem_filter.mp he).1

theorem restore {hooks : List η} (like : ∀ hook ∈ hooks, P hook) : (h.restore a hooks).Forall P := by
  intro e he
  obtain he | he := List.mem_append.mp he
  · exact k e (List.mem_filter.mp he).1
  · obtain ⟨hook, mem, rfl⟩ := List.mem_map.mp he
    obtain mem | mem := List.mem_append.mp mem
    · exact like hook mem
    · exact k.on a hook mem

end Forall

end Hooks

/-! ## Hooks that take no hooks away -/

/-- A script that never takes hooks away, and registers only such scripts. -/
def Script.Keeps : Script → Prop
  | .stop => True
  | .peek _ rest => ∀ v, (rest v).Keeps
  | .poke _ _ rest => ∀ r, (rest r).Keeps
  | .count _ rest => ∀ n, (rest n).Keeps
  | .clear _ _ => False
  | .attach _ hook rest => (∀ a v, (hook a v).Keeps) ∧ rest.Keeps
  | .report _ rest => rest.Keeps

/-- A hook that never takes hooks away. -/
def Hook.Keeps : Hook → Prop
  | .script run => ∀ a v, (run a v).Keeps
  | .waitSync _ => True

namespace Board

/-- A board whose hooks never take hooks away. -/
def KeepsHooks (b : Board) : Prop := ∀ e ∈ b.hooks.entries, e.2.Keeps

namespace KeepsHooks

variable {b c : Board} (h : b.KeepsHooks)

include h

theorem of_eq (hooks : c.hooks = b.hooks) : c.KeepsHooks := fun e he => h e (hooks ▸ he)

theorem on (a : Address) : ∀ hook ∈ b.hooks.on a, hook.Keeps := Hooks.Forall.on a h

theorem attach (a : Address) (hook : Hook) (keeps : hook.Keeps) :
    KeepsHooks { b with hooks := b.hooks.attach a hook } := Hooks.Forall.attach a h keeps

theorem detach (a : Address) : KeepsHooks { b with hooks := b.hooks.detach a } := Hooks.Forall.detach a h

theorem restore (a : Address) {hooks : List Hook} (keeps : ∀ hook ∈ hooks, hook.Keeps) :
    KeepsHooks { b with hooks := b.hooks.restore a hooks } := Hooks.Forall.restore a h keeps

end KeepsHooks

end Board

end Atari
