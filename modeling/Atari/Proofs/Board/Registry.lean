import Atari.Proofs.Board.Hooks
import Atari.Proofs.Board.Sustained

/-!
# The registry while hooks run

An address whose hooks are called is being served: its hooks are away until the last one of them has returned.
Hooks that store bytes have other addresses served meanwhile, so those that are being served stand in a stack.

* `Service`: the hooks of an address while they are called; `Registry`: the hooks that are attached, and the
  stack;
* `Registry.Next`: what one deed does to the registry; `Registry.Runs`: what several do;
* `Registry.serving`: the addresses that are being served; `Registry.away`: the hooks of an address that are
  away; `Registry.all`: all its hooks;
* `Registry.Next.all`, `Registry.Runs.all`: an address keeps its hooks, unless some are registered or taken
  away; `Registry.Runs.none`: an address without any hook gets none, and none are called;
* **`Board.script_runs`**: the deeds of a script lead from the hooks of the board before to the hooks of the
  board behind, with nothing being served in the end.
-/

namespace Atari

/-- The hooks of an address while they are called, one after the other. -/
structure Service where
  address : Address
  hooks : List Hook
  /-- Those that were not called yet. -/
  waiting : List Hook
  /-- Whether one of them runs. -/
  running : Bool
  hooks_ne_nil : hooks ≠ []

/-- The hooks that are attached, and the addresses that are being served, the innermost first. -/
structure Registry where
  attached : Hooks Hook
  services : List Service := []

namespace Registry

/-- What one deed does to the registry. -/
inductive Next : Registry → Deed → Registry → Prop
  | pass {r : Registry} {a : Address} {v : Byte} : r.attached.on a = [] → Next r (.stored a v []) r
  /-- The hooks of the address of a byte are taken away and wait to be called. -/
  | enter {attached : Hooks Hook} {services : List Service} {a : Address} {v : Byte} {hooks : List Hook}
    (some : hooks ≠ []) : attached.on a = hooks →
    Next ⟨attached, services⟩ (.stored a v hooks)
      ⟨attached.detach a, ⟨a, hooks, hooks, false, some⟩ :: services⟩
  | call {attached : Hooks Hook} {services : List Service} {a : Address} {v : Byte} {m : Memory} {hook : Hook}
    {hooks waiting : List Hook} {some : hooks ≠ []} :
    Next ⟨attached, ⟨a, hooks, hook :: waiting, false, some⟩ :: services⟩ (.called hook a v m)
      ⟨attached, ⟨a, hooks, waiting, true, some⟩ :: services⟩
  | back {attached : Hooks Hook} {services : List Service} {a : Address} {hooks waiting : List Hook}
    {some : hooks ≠ []} : waiting ≠ [] →
    Next ⟨attached, ⟨a, hooks, waiting, true, some⟩ :: services⟩ .returned
      ⟨attached, ⟨a, hooks, waiting, false, some⟩ :: services⟩
  /-- When the last one of them returns, all of them are put back. -/
  | leave {attached : Hooks Hook} {services : List Service} {a : Address} {hooks : List Hook}
    {some : hooks ≠ []} :
    Next ⟨attached, ⟨a, hooks, [], true, some⟩ :: services⟩ .returned ⟨attached.restore a hooks, services⟩
  | attach {attached : Hooks Hook} {services : List Service} {a : Address} {hook : Hook} :
    Next ⟨attached, services⟩ (.attached a hook) ⟨attached.attach a hook, services⟩
  | clear {attached : Hooks Hook} {services : List Service} {a : Address} :
    Next ⟨attached, services⟩ (.cleared a) ⟨attached.detach a, services⟩
  | draw {r : Registry} {display : Nat} : Next r (.drawn display) r

/-- What several deeds do to the registry. -/
inductive Runs : Registry → List Deed → Registry → Prop
  | nil {r : Registry} : Runs r [] r
  | cons {r mid last : Registry} {deed : Deed} {deeds : List Deed} :
    Next r deed mid → Runs mid deeds last → Runs r (deed :: deeds) last

namespace Runs

variable {r mid last : Registry} {deed : Deed} {deeds others : List Deed}

theorem append (first : Runs r deeds mid) (second : Runs mid others last) :
    Runs r (deeds ++ others) last := by
  induction first with
  | nil => exact second
  | cons next _ ih => exact .cons next (ih second)

theorem snoc (first : Runs r deeds mid) (next : Next mid deed last) : Runs r (deeds ++ [deed]) last :=
  first.append (.cons next .nil)

theorem split (runs : Runs r (deeds ++ others) last) :
    ∃ mid, Runs r deeds mid ∧ Runs mid others last := by
  induction deeds generalizing r with
  | nil => exact ⟨r, .nil, runs⟩
  | cons deed deeds ih =>
    cases runs with
    | cons next rest =>
      obtain ⟨mid, first, second⟩ := ih rest
      exact ⟨mid, .cons next first, second⟩

end Runs

/-! ## All hooks of an address -/

/-- The addresses that are being served, the innermost first. -/
def serving (r : Registry) : List Address := r.services.map (·.address)

/-- The hooks of an address that are away, in the order in which they will be attached. -/
def away (a : Address) : List Service → List Hook
  | [] => []
  | s :: services => away a services ++ if s.address = a then s.hooks else []

/-- The hooks of an address, those that are away and those that are attached. -/
def all (r : Registry) (a : Address) : List Hook := away a r.services ++ r.attached.on a

variable {r mid last : Registry} {a : Address} {deed : Deed} {deeds : List Deed}

theorem away_eq_nil_iff {services : List Service} :
    away a services = [] ↔ a ∉ services.map (·.address) := by
  induction services with
  | nil => simp [away]
  | cons s services ih =>
    rw [away, List.append_eq_nil_iff, ih, List.map_cons, List.mem_cons, not_or, and_comm]
    refine and_congr_left fun _ => ?_
    by_cases same : s.address = a
    · simp [same, s.hooks_ne_nil]
    · simp [same, Ne.symm same]

theorem all_eq_nil_iff : r.all a = [] ↔ a ∉ r.serving ∧ r.attached.on a = [] := by
  rw [all, List.append_eq_nil_iff, away_eq_nil_iff, serving]

namespace Next

/-- An address keeps its hooks, unless some are registered or taken away. -/
theorem all (next : Next r deed last) (registers : ∀ hook, deed ≠ .attached a hook)
    (clears : deed ≠ .cleared a) : last.all a = r.all a := by
  cases next with
  | pass | call | back | draw => rfl
  | @enter attached services c _ hooks _ on =>
    by_cases same : c = a
    · subst same
      simp [Registry.all, away, Hooks.on_detach, on]
    · simp [Registry.all, away, Hooks.on_detach, same, Ne.symm same]
  | @leave attached services c hooks =>
    by_cases same : c = a
    · subst same
      simp [Registry.all, away, Hooks.on_restore]
    · simp [Registry.all, away, Hooks.on_restore, same, Ne.symm same]
  | @attach attached services c hook =>
    have apart : a ≠ c := fun same => registers hook (same ▸ rfl)
    simp [Registry.all, Hooks.on_attach, apart]
  | @clear attached services c =>
    have apart : a ≠ c := fun same => clears (same ▸ rfl)
    simp [Registry.all, Hooks.on_detach, apart]

theorem cleared (next : Next r (.cleared a) last) : last.all a = away a r.services := by
  cases next
  simp [Registry.all, Hooks.on_detach]

theorem stored {v : Byte} {hooks : List Hook} (next : Next r (.stored a v hooks) last) :
    r.attached.on a = hooks := by
  cases next with
  | pass on | enter _ on => exact on

theorem called {hook : Hook} {v : Byte} {m : Memory} (next : Next r (.called hook a v m) last) :
    a ∈ r.serving := by
  cases next
  exact List.mem_cons_self

theorem none (next : Next r deed last) (registers : ∀ hook, deed ≠ .attached a hook)
    (none : r.all a = []) : last.all a = [] := by
  by_cases clears : deed = .cleared a
  · subst clears
    rw [next.cleared, away_eq_nil_iff]
    exact (all_eq_nil_iff.mp none).1
  · rw [next.all registers clears, none]

end Next

namespace Runs

variable {v : Byte}

theorem all (runs : Runs r deeds last) (registers : ∀ hook, .attached a hook ∉ deeds)
    (clears : .cleared a ∉ deeds) : last.all a = r.all a := by
  induction runs with
  | nil => rfl
  | cons next _ ih =>
    rw [ih (fun hook mem => registers hook (List.mem_cons_of_mem _ mem))
      fun mem => clears (List.mem_cons_of_mem _ mem)]
    exact next.all (fun hook same => registers hook (same ▸ List.mem_cons_self))
      fun same => clears (same ▸ List.mem_cons_self)

/-- **An address without any hook gets none**, unless they are registered, and a byte that is stored there
calls none. -/
theorem none (runs : Runs r deeds last) (registers : ∀ hook, .attached a hook ∉ deeds)
    (none : r.all a = []) :
    last.all a = [] ∧ (∀ v hooks, .stored a v hooks ∈ deeds → hooks = []) ∧
      ∀ hook v m, .called hook a v m ∉ deeds := by
  induction runs with
  | nil => exact ⟨none, by simp, by simp⟩
  | cons next _ ih =>
    have first := next.none (fun hook same => registers hook (same ▸ List.mem_cons_self)) none
    obtain ⟨kept, stored, called⟩ := ih (fun hook mem => registers hook (List.mem_cons_of_mem _ mem)) first
    obtain ⟨idle, on⟩ := all_eq_nil_iff.mp none
    refine ⟨kept, fun v hooks mem => ?_, fun hook v m mem => ?_⟩
    · obtain rfl | mem := List.mem_cons.mp mem
      · exact next.stored.symm.trans on
      · exact stored v hooks mem
    · obtain rfl | mem := List.mem_cons.mp mem
      · exact idle next.called
      · exact called hook v m mem

end Runs

end Registry

namespace Board

open Registry

variable {b : Board} {a : Address} {v : Byte}

/-! ## Boards with the mark -/

/-- Hooks that were left out leave a mark for good. -/
theorem storeWithin_overrun (depth : Nat) (missed : b.overrun = true) (a : Address) (v : Byte) :
    (storeWithin depth b a v).overrun = true := by
  -- The hooks of the address store at a smaller depth.
  induction depth generalizing b a v with
  | zero =>
    by_cases on : b.hooks.on a = []
    · rw [storeWithin_of_on_eq_nil on]
      exact missed
    · rw [storeWithin_zero_of_on_ne_nil on]
  | succ depth ih =>
    by_cases on : b.hooks.on a = []
    · rw [storeWithin_of_on_eq_nil on]
      exact missed
    · have marked : Sustained (storeWithin depth) (storeWithin depth) (deedsWithin depth)
          (deedsWithin depth) True fun _ b => b.overrun = true :=
        ⟨fun missed _ same => same.trans missed, fun _ missed _ _ => missed, fun missed _ => missed,
          fun missed _ => missed, fun missed => ih missed, fun _ _ _ => ⟨rfl, rfl⟩⟩
      rw [storeWithin_of_on_ne_nil on]
      exact (@Sustained.calls _ _ _ _ _ _ marked [] { b.setByte a v with hooks := b.hooks.detach a }
        (fun missed _ _ _ => missed) (fun missed => missed) _ (fun _ _ => .inr trivial) missed a v).1

/-! ## Boards without it -/

/-- The hooks of a board are attached, and some addresses are being served, unless hooks were left out. -/
def Served (start : Registry) (services : List Service) (past : List Deed) (b : Board) : Prop :=
  b.overrun = true ∨ Runs start past ⟨b.hooks, services⟩

namespace Served

variable {start : Registry} {services : List Service} {past : List Deed}

theorem snoc {c : Board} {deed : Deed} {later : List Service} (h : Served start services past b)
    (overrun : c.overrun = b.overrun) (next : Next ⟨b.hooks, services⟩ deed ⟨c.hooks, later⟩) :
    Served start later (past ++ [deed]) c := h.imp overrun.trans fun runs => runs.snoc next

theorem setByte (h : Served start services past b) (on : b.hooks.on a = []) (v : Byte) :
    Served start services (past ++ [.stored a v []]) (b.setByte a v) := h.snoc rfl (.pass on)

/-- Hooks that are called one after the other, and are put back then. -/
theorem calls {store : Store} {during : Board → Address → Byte → List Deed}
    (call : ∀ {services : List Service} {past : List Deed} {b : Board}, Served start services past b →
      ∀ hook : Hook, Served start services (past ++ hook.deeds store during a v b) (hook.call store a v b))
    {hooks waiting : List Hook} {some : hooks ≠ []} (more : waiting ≠ [])
    (h : Served start (⟨a, hooks, waiting, false, some⟩ :: services) past b) :
    let c := waiting.foldl (fun b hook => hook.call store a v b) b
    Served start services (past ++ callDeeds store during a v waiting b)
      { c with hooks := c.hooks.restore a hooks } := by
  induction waiting generalizing past b with
  | nil => exact absurd rfl more
  | cons hook waiting ih =>
    have called : Served start (⟨a, hooks, waiting, true, some⟩ :: services)
        (past ++ [.called hook a v b.memory]) b := h.snoc rfl .call
    have ran := call called hook
    cases waiting with
    | nil =>
      have left : Served start services _ { hook.call store a v b with
          hooks := (hook.call store a v b).hooks.restore a hooks } := ran.snoc rfl .leave
      simp only [List.append_assoc, List.cons_append, List.nil_append] at left
      exact left
    | cons next waiting =>
      have back := ran.snoc rfl (.back (List.cons_ne_nil next waiting))
      have last := ih (List.cons_ne_nil next waiting) back
      simp only [List.append_assoc, List.cons_append, List.nil_append] at last
      exact last

end Served

theorem sustained_served {store : Store} {during : Board → Address → Byte → List Deed} {start : Registry}
    {services : List Service}
    (runs : ∀ {past : List Deed} {b : Board}, Served start services past b →
      ∀ a v, Served start services (past ++ during b a v) (store b a v)) :
    Sustained store store during during True (Served start services) where
  same served hooks overrun := served.imp overrun.trans fun runs => hooks ▸ runs
  attach _ served _ _ := served.snoc rfl .attach
  clear served _ := served.snoc rfl .clear
  draw served _ := served.snoc rfl .draw
  stores served a v := runs served a v
  agree _ _ _ := ⟨rfl, rfl⟩

/-- A store leaves the addresses that are being served alone. -/
theorem storeWithin_served (depth : Nat) {start : Registry} {services : List Service} {past : List Deed}
    (served : Served start services past b) (a : Address) (v : Byte) :
    Served start services (past ++ deedsWithin depth b a v) (storeWithin depth b a v) := by
  -- The hooks of the address store at a smaller depth, with one address more that is being served.
  induction depth generalizing b past services a v with
  | zero =>
    by_cases on : b.hooks.on a = []
    · rw [storeWithin_of_on_eq_nil on, deedsWithin_of_on_eq_nil on]
      exact served.setByte on v
    · rw [storeWithin_zero_of_on_ne_nil on]
      exact .inl rfl
  | succ depth ih =>
    by_cases on : b.hooks.on a = []
    · rw [storeWithin_of_on_eq_nil on, deedsWithin_of_on_eq_nil on]
      exact served.setByte on v
    · have call {services : List Service} {past : List Deed} {b : Board}
          (served : Served start services past b) (hook : Hook) :
          Served start services (past ++ hook.deeds (storeWithin depth) (deedsWithin depth) a v b)
            (hook.call (storeWithin depth) a v b) :=
        ((sustained_served ih).call (.inr trivial) served a v).1
      obtain missed | runs := served
      · exact .inl (storeWithin_overrun _ missed a v)
      have entered : Served start (⟨a, b.hooks.on a, b.hooks.on a, false, on⟩ :: services)
          (past ++ [.stored a v (b.hooks.on a)]) { b.setByte a v with hooks := b.hooks.detach a } :=
        .inr (runs.snoc (.enter on rfl))
      have calls := entered.calls call on
      rw [List.append_assoc] at calls
      rw [storeWithin_of_on_ne_nil on]
      exact calls

/-- **The deeds of a script tell what becomes of the registry**, unless hooks call each other too deep. -/
theorem script_runs {depth : Nat} {s : Script} (fits : (s.run (storeWithin depth) b).overrun = false) :
    Runs ⟨b.hooks, []⟩ (s.deeds (storeWithin depth) (deedsWithin depth) b)
      ⟨(s.run (storeWithin depth) b).hooks, []⟩ := by
  have start : Served ⟨b.hooks, []⟩ [] [] b := .inr .nil
  have served := ((sustained_served (storeWithin_served depth)).script (.inr trivial) start (s := s)).1
  refine served.resolve_left ?_
  rw [fits]
  exact Bool.false_ne_true

end Board

end Atari
