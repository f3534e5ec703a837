import Atari.Value

/-!
# Registries of hooks

Hooks are registered on an address and called, in the order of registration, when a byte is stored
there. While the hooks of an address run they are detached.

* `Hooks.on`: the hooks of an address;
* `Hooks.attach`, `Hooks.detach`, `Hooks.restore`.
-/

namespace Atari

/-- Hooks with their addresses, in the order of registration for each address. -/
structure Hooks (η : Type) where
  entries : List (Address × η) := []

namespace Hooks

variable {η : Type}

def on (h : Hooks η) (a : Address) : List η := (h.entries.filter (·.1 = a)).map (·.2)

/-- Registers a hook behind the others of its address. -/
def attach (h : Hooks η) (a : Address) (hook : η) : Hooks η := ⟨h.entries ++ [(a, hook)]⟩

/-- Takes the hooks of an address away. -/
def detach (h : Hooks η) (a : Address) : Hooks η := ⟨h.entries.filter (·.1 ≠ a)⟩

/-- Puts hooks back on an address, in front of those registered there meanwhile. -/
def restore (h : Hooks η) (a : Address) (hooks : List η) : Hooks η :=
  ⟨(h.detach a).entries ++ (hooks ++ h.on a).map (a, ·)⟩

/-- The number of hooks of an address. -/
def count (h : Hooks η) (a : Address) : Nat := (h.on a).length

/-- The addresses that have hooks, in rising order. -/
def addresses (h : Hooks η) : List Address :=
  (h.entries.map (·.1)).eraseDups.mergeSort (· ≤ ·)

/-- Each address with the number of its hooks, in rising order. -/
def text (h : Hooks η) : String :=
  "[" ++ ", ".intercalate (h.addresses.map fun a => a.text ++ "×" ++ toString (h.count a)) ++ "]"

end Hooks

end Atari
