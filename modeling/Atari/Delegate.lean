/-!
# Lists of watchers

Watchers are registered with a parameter and called, in the order of registration, for every
argument that passes a filter on the parameter.

* `Delegate.add`, `Delegate.remove`, `Delegate.clear`: registration by handle;
* `Delegate.called`: the watchers that a call reaches;
* `Delegate.invoke`: the call itself; **`Delegate.invoke_eq`**: it reaches these watchers, in order.
-/

namespace Atari

/-- The number that a registration is taken back with. -/
structure Handle where
  number : Nat
  deriving DecidableEq, Repr

def Handle.text (h : Handle) : String := "Handle(" ++ toString h.number ++ ")"

/-- One registration of a watcher. -/
structure Delegate.Entry (π ω : Type) where
  handle : Handle
  parameter : π
  watcher : ω

/-- Watchers in the order of registration. Handles are numbered from zero and never used again. -/
structure Delegate (π ω : Type) where
  entries : List (Delegate.Entry π ω) := []
  next : Nat := 0

namespace Delegate

variable {π ω : Type}

def add (d : Delegate π ω) (parameter : π) (watcher : ω) : Handle × Delegate π ω :=
  (⟨d.next⟩, ⟨d.entries ++ [⟨⟨d.next⟩, parameter, watcher⟩], d.next + 1⟩)

def contains (d : Delegate π ω) (h : Handle) : Bool := d.entries.any (·.handle = h)

/-- Takes a registration back; tells whether there was one. -/
def remove (d : Delegate π ω) (h : Handle) : Bool × Delegate π ω :=
  (d.contains h, { d with entries := d.entries.eraseP (·.handle = h) })

def clear (d : Delegate π ω) : Delegate π ω := { d with entries := [] }

def size (d : Delegate π ω) : Nat := d.entries.length

def isEmpty (d : Delegate π ω) : Bool := d.entries.isEmpty

/-- The watchers whose parameter passes the filter, in order. -/
def called (d : Delegate π ω) (passes : π → Bool) : List ω :=
  (d.entries.filter fun e => passes e.parameter).map (·.watcher)

/-- Calls the watchers whose parameter passes the filter, in order, and counts them. -/
def invoke {σ : Type} (d : Delegate π ω) (passes : π → Bool) (call : ω → σ → σ) (s : σ) : Nat × σ :=
  d.entries.foldl
    (fun (n, s) e => if passes e.parameter then (n + 1, call e.watcher s) else (n, s)) (0, s)

theorem invoke_eq {σ : Type} (d : Delegate π ω) (passes : π → Bool) (call : ω → σ → σ) (s : σ) :
    d.invoke passes call s =
      ((d.called passes).length, (d.called passes).foldl (fun s w => call w s) s) := by
  -- The count goes on from what was counted before.
  suffices counted : ∀ (es : List (Entry π ω)) (n : Nat) (s : σ),
      es.foldl (fun (n, s) e => if passes e.parameter then (n + 1, call e.watcher s) else (n, s)) (n, s) =
        (n + (es.filter fun e => passes e.parameter).length,
          ((es.filter fun e => passes e.parameter).map (·.watcher)).foldl (fun s w => call w s) s) by
    simpa [invoke, called] using counted d.entries 0 s
  intro es
  induction es with
  | nil => simp
  | cons e es ih =>
    intro n s
    by_cases h : passes e.parameter
    · simp [h, ih, Nat.add_assoc, Nat.add_comm 1]
    · simp [h, ih]

def text (d : Delegate π ω) : String := "Delegate [" ++ toString d.size ++ " callbacks]"

end Delegate

end Atari
