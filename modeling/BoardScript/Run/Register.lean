/-
The numbers of scopes. A scope is given the next number when it is made, and
a register finds it under that number. The register itself keeps no scope
alive: once nothing else holds a scope it is dropped, and from then on it is
not found. What is left of the entries of dropped scopes is cleared away now
and then, when a scope is made whose number is a multiple of `clearing`.

Scopes are told apart by their place: how many scopes had been made before.
-/
import BoardScript.Run.Scope

namespace BoardScript

/-- The numbers given so far and where scopes are found by number. -/
structure Register where
  /-- the number of each scope, by its place -/
  numbers : Array ScopeId
  /-- places by number, the latest entry first -/
  entries : List (ScopeId × Nat)
  /-- the number that is given next -/
  next : ScopeId
  /-- whether the scope at a place is held by anything but the register -/
  held : Nat → Bool

namespace Register

/-- How many numbers are given between one clearing and the next. -/
def clearing : Nat := 1024

/-- A register of the global scope alone. -/
def start : Register := ⟨#[Scopes.globalId], [(Scopes.globalId, 0)], Scopes.globalId + 1, (· == 0)⟩

/-- The entries that are left when the next scope is made. -/
def remaining (r : Register) : List (ScopeId × Nat) :=
  if r.next % clearing = 0 then r.entries.filter fun entry => r.held entry.2 else r.entries

/-- Makes a scope, which is held by whatever makes it. -/
def make (r : Register) : Register :=
  let place := r.numbers.size
  { numbers := r.numbers.push r.next
    entries := (r.next, place) :: r.remaining
    next := r.next + 1
    held := fun other => other == place || r.held other }

/-- The last that held a scope lets go of it. -/
def drop (r : Register) (place : Nat) : Register :=
  { r with held := fun other => other != place && r.held other }

/-- The scope with a number, if it is still held. -/
def find (r : Register) (number : ScopeId) : Option Nat :=
  match r.entries.lookup number with
  | some place => if r.held place then some place else none
  | none => none

end Register

end BoardScript
