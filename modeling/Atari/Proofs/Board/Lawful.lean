import Atari.Proofs.Board.Deeds
import Atari.Proofs.Board.Hooks
import Mathlib.Logic.Function.Basic

/-!
# The law of hooks

Hooks that are registered stay registered, while the board takes those that run away and puts them back.
So what a board does is told by all hooks that were ever registered, and by how many of them run.

* `Bus`: memory, and all hooks that were registered; `Bus.attached`: those that are attached;
* `Bus.Lawful`, `Bus.Calls`: what may happen, and which hooks are called;
* `Bus.Tracks`: a board with this memory and these hooks;
* `Board.Obeys`: a change of a board that does what may happen;
* **`Board.pokeWith_lawful`**: bytes that are stored obey the law.
-/

namespace Atari

/-! ## What may happen -/

/-- Memory, and all hooks that were registered. -/
structure Bus where
  memory : Memory
  registered : Hooks Hook

namespace Bus

/-- The hooks that are attached to an address, of whose hooks the first ones run. -/
def attached (bus : Bus) (running : Address → Nat) (a : Address) : List Hook :=
  (bus.registered.on a).drop (running a)

mutual

/-- What may happen while the first hooks of some addresses run. -/
inductive Lawful : (running : Address → Nat) → Bus → List Deed → Bus → Prop
  | nil {running : Address → Nat} {bus : Bus} : Lawful running bus [] bus
  | append {running : Address → Nat} {bus mid last : Bus} {deeds others : List Deed} :
    Lawful running bus deeds mid → Lawful running mid others last →
    Lawful running bus (deeds ++ others) last
  | attach {running : Address → Nat} {bus : Bus} (a : Address) (hook : Hook) :
    Lawful running bus [.attached a hook] { bus with registered := bus.registered.attach a hook }
  | draw {running : Address → Nat} {bus : Bus} (display : Nat) : Lawful running bus [.drawn display] bus
  /-- A byte is stored, and the hooks that are attached to its address are called. Then all hooks run
  that its address has so far. -/
  | store {running : Address → Nat} {bus last : Bus} {a : Address} {v : Byte} {deeds : List Deed} :
    Calls (Function.update running a (bus.registered.on a).length) a v (bus.attached running a)
      { bus with memory := bus.memory.set a v } deeds last →
    Lawful running bus (.stored a v (bus.attached running a) :: deeds) last

/-- Some hooks are called one after the other, each of them once. A hook is given the address and the
byte, and returns before the next one is called. -/
inductive Calls : (running : Address → Nat) → (a : Address) → (v : Byte) → List Hook → Bus → List Deed →
    Bus → Prop
  | nil {running : Address → Nat} {a : Address} {v : Byte} {bus : Bus} : Calls running a v [] bus [] bus
  | call {running : Address → Nat} {a : Address} {v : Byte} {hook : Hook} {hooks : List Hook}
    {bus mid last : Bus} {deeds others : List Deed} :
    Lawful running bus deeds mid → Calls running a v hooks mid others last →
    Calls running a v (hook :: hooks) bus (.called hook a v bus.memory :: deeds ++ .returned :: others) last

end

/-! ## What was registered -/

mutual

theorem Lawful.entries_eq {running : Address → Nat} {bus last : Bus} {deeds : List Deed} :
    Lawful running bus deeds last →
      last.registered.entries = bus.registered.entries ++ Board.registrations deeds
  | .nil => (List.append_nil _).symm
  | .append first second => by
    rw [second.entries_eq, first.entries_eq, Board.registrations_append, List.append_assoc]
  | .attach _ _ => rfl
  | .draw _ => (List.append_nil _).symm
  | .store calls => calls.entries_eq

theorem Calls.entries_eq {running : Address → Nat} {a : Address} {v : Byte} {hooks : List Hook}
    {bus last : Bus} {deeds : List Deed} :
    Calls running a v hooks bus deeds last →
      last.registered.entries = bus.registered.entries ++ Board.registrations deeds
  | .nil => (List.append_nil _).symm
  | .call during others => by
    rw [others.entries_eq, during.entries_eq, List.cons_append, Board.registrations,
      Board.registrations_append, Board.registrations, List.append_assoc]

end

/-! ## Boards that follow -/

/-- A board with the memory of a bus, where the hooks that do not run are attached. -/
structure Tracks (running : Address → Nat) (bus : Bus) (b : Board) : Prop where
  memory : b.memory = bus.memory
  hooks : ∀ a, b.hooks.on a = bus.attached running a
  running_le : ∀ a, running a ≤ (bus.registered.on a).length

variable {running : Address → Nat} {bus last : Bus} {b c : Board} {a : Address} {v : Byte}

theorem tracks_zero (b : Board) : Tracks (fun _ => 0) ⟨b.memory, b.hooks⟩ b :=
  ⟨rfl, fun _ => rfl, fun _ => Nat.zero_le _⟩

theorem Tracks.congr (h : bus.Tracks running b) (memory : c.memory = b.memory)
    (hooks : c.hooks = b.hooks) : bus.Tracks running c :=
  ⟨memory.trans h.memory, fun a => hooks ▸ h.hooks a, h.running_le⟩

theorem Tracks.attach (h : bus.Tracks running b) (a : Address) (hook : Hook) :
    Tracks running { bus with registered := bus.registered.attach a hook }
      { b with hooks := b.hooks.attach a hook } where
  memory := h.memory
  hooks x := by
    show (b.hooks.attach a hook).on x = ((bus.registered.attach a hook).on x).drop (running x)
    rw [Hooks.on_attach, Hooks.on_attach, List.drop_append_of_le_length (h.running_le x), h.hooks]
    rfl
  running_le x := by
    have := h.running_le x
    simp only [Hooks.on_attach, List.length_append]
    omega

theorem Tracks.detach (h : bus.Tracks running b) (a : Address) (v : Byte) :
    Tracks (Function.update running a (bus.registered.on a).length)
      { bus with memory := bus.memory.set a v } { b.setByte a v with hooks := b.hooks.detach a } where
  memory := congrArg (·.set a v) h.memory
  hooks x := by
    show (b.hooks.detach a).on x = (bus.registered.on x).drop _
    rw [Hooks.on_detach]
    by_cases same : x = a
    · subst same
      simp
    · rw [if_neg same, Function.update_of_ne same]
      exact h.hooks x
  running_le x := by
    by_cases same : x = a
    · subst same
      simp
    · rw [Function.update_of_ne same]
      exact h.running_le x

/-- The hooks that were called are put back in front of those that were registered meanwhile. -/
theorem Tracks.restore (h : bus.Tracks running b) {entries : List (Address × Hook)}
    (more : last.registered.entries = bus.registered.entries ++ entries)
    (k : last.Tracks (Function.update running a (bus.registered.on a).length) c) :
    last.Tracks running { c with hooks := c.hooks.restore a (b.hooks.on a) } := by
  have grown (x : Address) :
      last.registered.on x = bus.registered.on x ++ (⟨entries⟩ : Hooks Hook).on x := by
    rw [← Hooks.on_append, ← more]
  refine ⟨k.memory, fun x => ?_, fun x => ?_⟩
  · show (c.hooks.restore a (b.hooks.on a)).on x = (last.registered.on x).drop (running x)
    rw [Hooks.on_restore]
    by_cases same : x = a
    · subst same
      have fresh : c.hooks.on x = (⟨entries⟩ : Hooks Hook).on x := by
        rw [k.hooks, attached, grown, Function.update_self, List.drop_left]
      rw [if_pos rfl, h.hooks, fresh, grown, List.drop_append_of_le_length (h.running_le x)]
      rfl
    · rw [if_neg same, k.hooks, attached, Function.update_of_ne same]
  · have := h.running_le x
    rw [grown, List.length_append]
    omega

end Bus

/-! ## Boards that obey -/

namespace Board

open Bus

/-- A change of a board from `b` to `c`, in the course of which some things happened, obeys the law: if no
hooks were left out because they were nested too deep, then what happened may happen. -/
structure Obeys (b c : Board) (deeds : List Deed) : Prop where
  keeps : c.KeepsHooks
  fits : c.overrun = false → b.overrun = false
  lawful : c.overrun = false → ∀ {running : Address → Nat} {bus : Bus}, Tracks running bus b →
    ∃ last, Lawful running bus deeds last ∧ Tracks running last c

variable {b c e : Board} {deeds others : List Deed}

theorem Obeys.trans (h : Obeys b c deeds) (k : c.KeepsHooks → Obeys c e others) :
    Obeys b e (deeds ++ others) where
  keeps := (k h.keeps).keeps
  fits fits := h.fits ((k h.keeps).fits fits)
  lawful fits running bus tracks := by
    obtain ⟨mid, first, tracks⟩ := h.lawful ((k h.keeps).fits fits) tracks
    obtain ⟨last, second, tracks⟩ := (k h.keeps).lawful fits tracks
    exact ⟨last, .append first second, tracks⟩

theorem Obeys.of_eq (keeps : b.KeepsHooks) (memory : c.memory = b.memory) (hooks : c.hooks = b.hooks)
    (overrun : c.overrun = b.overrun) : Obeys b c [] where
  keeps := keeps.of_eq hooks
  fits fits := overrun ▸ fits
  lawful _ _ bus tracks := ⟨bus, .nil, tracks.congr memory hooks⟩

theorem Obeys.refl (keeps : b.KeepsHooks) : Obeys b b [] := .of_eq keeps rfl rfl rfl

theorem obeys_attach (keeps : b.KeepsHooks) (a : Address) (hook : Hook) (kept : hook.Keeps) :
    Obeys b { b with hooks := b.hooks.attach a hook } [.attached a hook] where
  keeps := keeps.attach a hook kept
  fits fits := fits
  lawful _ _ _ tracks := ⟨_, .attach a hook, tracks.attach a hook⟩

theorem obeys_draw (keeps : b.KeepsHooks) (i : Nat) : Obeys b (b.lend i) [.drawn i] where
  keeps := keeps
  fits fits := fits
  lawful _ _ bus tracks := ⟨bus, .draw i, tracks.congr rfl rfl⟩

section Stores

variable {store : Store} {during : Board → Address → Byte → List Deed}
  (obeys : ∀ {b : Board} (_ : b.KeepsHooks) (a : Address) (v : Byte), Obeys b (store b a v) (during b a v))

include obeys

theorem storeAll_obeys (keeps : b.KeepsHooks) (a : Address) (data : List Byte) :
    Obeys b (storeAll store b a data) (b.allDeeds store during a data) := by
  induction data generalizing b a with
  | nil => exact .refl keeps
  | cons v data ih => exact (obeys keeps a v).trans fun keeps => ih keeps (a + 1)

theorem program_obeys {α : Type} (x : Program α) (keeps : b.KeepsHooks) :
    Obeys b (x.run store b).2 (x.deeds store during b) := by
  induction x generalizing b with
  | done x => exact .refl keeps
  | look rest ih => exact ih b.memory keeps
  | note level body rest ih =>
    have noted : Obeys b (b.note level body) [] := .of_eq keeps (by simp) (by simp) (by simp)
    exact noted.trans fun keeps => ih keeps
  | store a v rest ih => exact (obeys keeps a v).trans fun keeps => ih keeps

theorem script_obeys {s : Script} (kept : s.Keeps) (keeps : b.KeepsHooks) :
    Obeys b (s.run store b) (s.deeds store during b) := by
  induction s generalizing b with
  | stop => exact .refl keeps
  | peek a rest ih => exact ih _ (kept _) keeps
  | poke a data rest ih =>
    rw [Script.run, Script.deeds]
    cases poked : b.pokeWith store a data with
    | ok c =>
      unfold pokeWith at poked
      split at poked
      · cases poked
        exact (storeAll_obeys obeys keeps a data).trans fun keeps => ih _ (kept _) keeps
      · cases poked
    | error e => exact ih _ (kept _) keeps
  | count a rest ih => exact ih _ (kept _) keeps
  | clear a rest ih => exact kept.elim
  | attach a hook rest _ ih =>
    exact (obeys_attach keeps a (.script hook) kept.1).trans fun keeps => ih kept.2 keeps
  | report e rest ih =>
    have told : Obeys b (b.record e) [] := .of_eq keeps rfl rfl rfl
    exact told.trans fun keeps => ih kept keeps

theorem call_obeys {hook : Hook} (kept : hook.Keeps) (keeps : b.KeepsHooks) (a : Address) (v : Byte) :
    Obeys b (hook.call store a v b) (hook.deeds store during a v b) := by
  cases hook with
  | script run => exact script_obeys obeys (kept a v) keeps
  | waitSync i =>
    cases hd : b.display? i with
    | none =>
      rw [call_waitSync_away store hd, Hook.deeds, lineDeeds]
      simp only [hd]
      exact .of_eq keeps (by simp) (by simp) (by simp)
    | some d =>
      rw [call_waitSync store hd, Hook.deeds, lineDeeds]
      simp only [hd]
      have drawn : Obeys (b.lend i) (d.antic.scanLine store (b.lend i)).2.2
          ((Program.scanLine d.antic).deeds store during (b.lend i)) := by
        have lines := program_obeys obeys (Program.scanLine d.antic) (b := b.lend i) keeps
        rwa [Program.run_scanLine] at lines
      have all := ((obeys_draw keeps i).trans fun _ => drawn).trans fun keeps =>
        (Obeys.of_eq keeps rfl rfl rfl :
          Obeys _ ((d.antic.scanLine store (b.lend i)).2.2.giveBack i (d.scanLine store (b.lend i)).2.1) [])
      rw [List.append_nil] at all
      exact all

/-- What hooks do that are called one after the other. -/
structure CallsObey (a : Address) (v : Byte) (hooks : List Hook) (b c : Board) (deeds : List Deed) : Prop where
  keeps : c.KeepsHooks
  fits : c.overrun = false → b.overrun = false
  lawful : c.overrun = false → ∀ {running : Address → Nat} {bus : Bus}, Tracks running bus b →
    ∃ last, Calls running a v hooks bus deeds last ∧ Tracks running last c

theorem calls_obey {hooks : List Hook} (kept : ∀ hook ∈ hooks, hook.Keeps) (keeps : b.KeepsHooks)
    (a : Address) (v : Byte) :
    CallsObey a v hooks b (hooks.foldl (fun b hook => hook.call store a v b) b)
      (callDeeds store during a v hooks b) := by
  induction hooks generalizing b with
  | nil => exact ⟨keeps, fun fits => fits, fun _ _ bus tracks => ⟨bus, .nil, tracks⟩⟩
  | cons hook hooks ih =>
    obtain ⟨kept, others⟩ := List.forall_mem_cons.mp kept
    have first := call_obeys obeys kept keeps a v
    have rest := ih others first.keeps
    refine ⟨rest.keeps, fun fits => first.fits (rest.fits fits), fun fits running bus tracks => ?_⟩
    obtain ⟨mid, lawful, tracks'⟩ := first.lawful (rest.fits fits) tracks
    obtain ⟨last, calls, tracks''⟩ := rest.lawful fits tracks'
    refine ⟨last, ?_, tracks''⟩
    rw [callDeeds, tracks.memory]
    exact .call lawful calls

theorem called_obeys (keeps : b.KeepsHooks) (a : Address) (v : Byte) :
    Obeys b ((b.setByte a v).called store a v) (.stored a v (b.hooks.on a) ::
      callDeeds store during a v (b.hooks.on a) { b.setByte a v with hooks := b.hooks.detach a }) := by
  have detached : KeepsHooks { b.setByte a v with hooks := b.hooks.detach a } := keeps.detach a
  have calls := calls_obey obeys (keeps.on a) detached a v
  refine ⟨calls.keeps.restore a (keeps.on a), fun fits => calls.fits fits, fun fits running bus tracks => ?_⟩
  obtain ⟨last, lawful, follows⟩ := calls.lawful fits (tracks.detach a v)
  refine ⟨last, ?_, tracks.restore lawful.entries_eq follows⟩
  rw [tracks.hooks] at lawful ⊢
  exact .store lawful

end Stores

theorem setByte_obeys (keeps : b.KeepsHooks) {a : Address} (on : b.hooks.on a = []) (v : Byte) :
    Obeys b (b.setByte a v) [.stored a v []] where
  keeps := keeps
  fits fits := fits
  lawful _ running bus tracks := by
    refine ⟨{ bus with memory := bus.memory.set a v }, ?_,
      congrArg (·.set a v) tracks.memory, tracks.hooks, tracks.running_le⟩
    have none : bus.attached running a = [] := (tracks.hooks a).symm.trans on
    rw [← none]
    refine .store ?_
    rw [none]
    exact .nil

/-- **A byte that is stored obeys the law.** -/
theorem storeWithin_obeys (depth : Nat) (keeps : b.KeepsHooks) (a : Address) (v : Byte) :
    Obeys b (storeWithin depth b a v) (deedsWithin depth b a v) := by
  -- The hooks of the address store at a smaller depth.
  induction depth generalizing b a v with
  | zero =>
    by_cases on : b.hooks.on a = []
    · rw [storeWithin_of_on_eq_nil on, deedsWithin_of_on_eq_nil on]
      exact setByte_obeys keeps on v
    · rw [storeWithin_zero_of_on_ne_nil on]
      exact ⟨keeps, nofun, nofun⟩
  | succ depth ih =>
    by_cases on : b.hooks.on a = []
    · rw [storeWithin_of_on_eq_nil on, deedsWithin_of_on_eq_nil on]
      exact setByte_obeys keeps on v
    · rw [storeWithin_of_on_ne_nil on]
      exact called_obeys ih keeps a v

/-- **Bytes that are stored obey the law of hooks**, unless hooks call each other too deep. A byte is in
memory before the hooks that are attached to its address are called, each of them once and in their order.
Hooks that run are not called again. In the end each address has the hooks that it had before, and behind
them those that were registered meanwhile. -/
theorem pokeWith_lawful {depth : Nat} {b c : Board} {a : Address} {data : List Byte}
    (keeps : b.KeepsHooks) (poked : b.pokeWith (storeWithin depth) a data = .ok c)
    (fits : c.overrun = false) :
    let deeds := b.allDeeds (storeWithin depth) (deedsWithin depth) a data
    Lawful (fun _ => 0) ⟨b.memory, b.hooks⟩ deeds ⟨c.memory, ⟨b.hooks.entries ++ registrations deeds⟩⟩ ∧
      ∀ x, c.hooks.on x = b.hooks.on x ++ (⟨registrations deeds⟩ : Hooks Hook).on x := by
  intro deeds
  have obeys : Obeys b c deeds := by
    unfold pokeWith at poked
    split at poked
    · cases poked
      exact storeAll_obeys (storeWithin_obeys depth) keeps a data
    · cases poked
  obtain ⟨last, lawful, tracks⟩ := obeys.lawful fits (tracks_zero b)
  have entries : last.registered = ⟨b.hooks.entries ++ registrations deeds⟩ :=
    congrArg Hooks.mk lawful.entries_eq
  refine ⟨?_, fun x => ?_⟩
  · rw [← entries, tracks.memory]
    exact lawful
  · rw [tracks.hooks, Bus.attached, List.drop_zero, entries, Hooks.on_append]

/-- A board with two hooks. The first one registers another one on its own address, and then stores at
the address of the second one and at its own. -/
def rung : Board where
  hooks := ⟨[(0x0200, .script fun _ v =>
      .attach 0x0200 (fun _ _ => .stop)
        (.poke 0x0201 [v + 1] fun _ => .poke 0x0200 [0] fun _ => .stop)),
    (0x0201, .script fun _ _ => .stop)]⟩

theorem keepsHooks_rung : rung.KeepsHooks := by
  intro e he
  simp only [rung, List.mem_cons, List.not_mem_nil, or_false] at he
  obtain rfl | rfl := he
  · exact fun _ _ => ⟨fun _ _ => trivial, fun _ _ => trivial⟩
  · exact fun _ _ => trivial

/-- Behind the store, the first address has one hook more. -/
theorem pokeWith_lawful_rung :
    rung.KeepsHooks ∧ (rung.storeAll (storeWithin 2) 0x0200 [0x41]).overrun = false ∧
      ∀ x, (rung.storeAll (storeWithin 2) 0x0200 [0x41]).hooks.count x =
        rung.hooks.count x + [0x0200].count x := by
  have fits : (rung.storeAll (storeWithin 2) 0x0200 [0x41]).overrun = false := by decide +kernel
  have registered : (registrations
      (rung.allDeeds (storeWithin 2) (deedsWithin 2) 0x0200 [0x41])).map (·.1) = [0x0200] := by
    decide +kernel
  refine ⟨keepsHooks_rung, fits, fun x => ?_⟩
  have poked : rung.pokeWith (storeWithin 2) 0x0200 [0x41] =
      .ok (rung.storeAll (storeWithin 2) 0x0200 [0x41]) := rfl
  have obeyed := pokeWith_lawful keepsHooks_rung poked fits
  rw [← registered, Hooks.count, Hooks.count, obeyed.2 x, List.length_append]
  exact congrArg _ (Hooks.length_on ⟨registrations _⟩ x)

end Board

end Atari
