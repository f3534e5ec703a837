import Atari.Board.Basic

/-!
# Hooks made of actions

A hook that reports its call and then does a list of things, reporting each.

* `Action`: one thing to do;
* `Action.hook`: the hook of a list of actions.
-/

namespace Atari

/-- One thing that a hook does. -/
inductive Action
  | poke (a : Address) (data : List Byte)
  /-- Stores the byte of the call plus a number. -/
  | pokeAdd (a : Address) (increment : Byte)
  | peek (a : Address)
  | count (a : Address)
  | clear (a : Address)
  /-- Registers another hook of this kind. -/
  | attach (a : Address) (label : String) (actions : List Action)

namespace Action

def stored : Except MemoryError Unit → Outcome
  | .ok () => .done
  | .error e => .refused e

mutual

/-- Does one action for a call with the byte `v`, reports it and goes on. -/
def script (v : Byte) (rest : Script) : Action → Script
  | poke a data => .poke a data fun r => .report (.did "poke" a (stored r)) rest
  | pokeAdd a increment =>
    .poke a [v + increment] fun r => .report (.did "poke_add" a (stored r)) rest
  | peek a => .peek a fun w => .report (.did "peek" a (.byte w)) rest
  | count a => .count a fun n => .report (.did "count" a (.count n)) rest
  | clear a => .clear a fun n => .report (.did "clear" a (.count n)) rest
  | attach a label actions =>
    .attach a (fun b w => .report (.hook label b w) (scripts w actions))
      (.report (.did "hook" a .done) rest)

/-- Does actions one after the other. -/
def scripts (v : Byte) : List Action → Script
  | [] => .stop
  | action :: actions => script v (scripts v actions) action

end

/-- The hook that reports its call and then does some actions. -/
def hook (label : String) (actions : List Action) : Hook :=
  .script fun a v => .report (.hook label a v) (scripts v actions)

end Action

end Atari
