import Atari.Proofs.Antic.Program
import Atari.Proofs.Board.Storing

/-!
# What happens while bytes are stored

A byte that is stored calls hooks, which store other bytes and register other hooks. The deeds of a store
tell all of this in the order in which it happens.

* `Deed`: one thing that happens;
* `Board.lineDeeds`, `Hook.deeds`: what happens while a scan line is drawn, and while a hook runs;
* `Board.deedsWithin`: what happens while a byte is stored; `Board.allDeeds`, `Board.listDeeds` for several
  bytes;
* `Board.registrations`: the hooks that were registered.
-/

namespace Atari

/-- One thing that happens while bytes are stored. -/
inductive Deed
  /-- A byte was stored, with some hooks on its address. -/
  | stored (a : Address) (v : Byte) (hooks : List Hook)
  /-- A hook is called for a byte, and finds memory like this. -/
  | called (hook : Hook) (a : Address) (v : Byte) (memory : Memory)
  /-- The hook that was called last, and has not returned yet, does so. -/
  | returned
  /-- A hook registers another one. -/
  | attached (a : Address) (hook : Hook)
  /-- A hook takes the hooks of an address away. -/
  | cleared (a : Address)
  /-- A display begins to draw a scan line. -/
  | drawn (display : Nat)

section Deeds

variable (store : Store) (during : Board → Address → Byte → List Deed)

/-- What happens while a program runs. -/
def Program.deeds {α : Type} : Program α → Board → List Deed
  | done _, _ => []
  | look rest, b => (rest b.memory).deeds b
  | note level body rest, b => rest.deeds (b.note level body)
  | .store a v rest, b => during b a v ++ rest.deeds (store b a v)

/-- What happens while bytes are stored one after the other. -/
def Board.allDeeds : Board → Address → List Byte → List Deed
  | _, _, [] => []
  | b, a, v :: data => during b a v ++ allDeeds (store b a v) (a + 1) data

/-- What happens while a script runs. -/
def Script.deeds : Script → Board → List Deed
  | .stop, _ => []
  | .peek a rest, b => (rest (b.peek a)).deeds b
  | .poke a data rest, b =>
    match b.pokeWith store a data with
    | .ok c => b.allDeeds store during a data ++ (rest (.ok ())).deeds c
    | .error e => (rest (.error e)).deeds b
  | .count a rest, b => (rest (b.hooks.count a)).deeds b
  | .clear a rest, b =>
    .cleared a :: (rest (b.hooks.count a)).deeds { b with hooks := b.hooks.detach a }
  | .attach a hook rest, b =>
    .attached a (.script hook) :: rest.deeds { b with hooks := b.hooks.attach a (.script hook) }
  | .report e rest, b => rest.deeds (b.record e)

/-- What happens when a display is asked for a scan line. -/
def Board.lineDeeds (b : Board) (display : Nat) : List Deed :=
  match b.display? display with
  | some d => .drawn display :: (Program.scanLine d.antic).deeds store during (b.lend display)
  | none => []

/-- What happens while a hook runs. -/
def Hook.deeds (hook : Hook) (a : Address) (v : Byte) (b : Board) : List Deed :=
  match hook with
  | .script run => (run a v).deeds store during b
  | .waitSync i => b.lineDeeds store during i

/-- What happens while hooks are called one after the other. -/
def Board.callDeeds (a : Address) (v : Byte) : List Hook → Board → List Deed
  | [], _ => []
  | hook :: hooks, b =>
    .called hook a v b.memory :: hook.deeds store during a v b ++
      .returned :: callDeeds a v hooks (hook.call store a v b)

end Deeds

namespace Board

/-- What happens while a byte is stored, with at most `depth` calls inside each other. -/
def deedsWithin : (depth : Nat) → Board → Address → Byte → List Deed
  | 0, b, a, v => [.stored a v (b.hooks.on a)]
  | depth + 1, b, a, v =>
    .stored a v (b.hooks.on a) ::
      callDeeds (storeWithin depth) (deedsWithin depth) a v (b.hooks.on a)
        { b.setByte a v with hooks := b.hooks.detach a }

/-- What happens while bytes are stored one after the other, each at its own address. -/
def listDeeds : Board → List (Address × Byte) → List Deed
  | _, [] => []
  | b, w :: writes => deedsWithin nesting b w.1 w.2 ++ listDeeds (b.store w.1 w.2) writes

/-- The hooks that were registered, in their order. -/
def registrations : List Deed → List (Address × Hook)
  | [] => []
  | .attached a hook :: deeds => (a, hook) :: registrations deeds
  | .stored .. :: deeds | .called .. :: deeds | .returned :: deeds | .cleared .. :: deeds
  | .drawn .. :: deeds => registrations deeds

theorem registrations_append (deeds others : List Deed) :
    registrations (deeds ++ others) = registrations deeds ++ registrations others := by
  induction deeds with
  | nil => rfl
  | cons deed deeds ih => cases deed <;> simp [registrations, ih]

variable {b : Board} {a : Address}

theorem deedsWithin_of_on_eq_nil (h : b.hooks.on a = []) (depth : Nat) (v : Byte) :
    deedsWithin depth b a v = [.stored a v []] := by
  cases depth <;> simp [deedsWithin, callDeeds, h]

end Board

end Atari
