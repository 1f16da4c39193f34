/-
Calling closures. A call opens a scope below the one the closure was made
in, binds the parameters there and runs the body, from its tree or from
its code; the scopes are put back however the body ends. Calls nest to a
limit only, so the recursion that they make is bounded by it.
-/
import BoardScript.Run.Stack
import BoardScript.Run.Tree

namespace BoardScript

/-- Makes a return the value of a function. Without one a map has the
value of its body, and a function is undefined. -/
def bodyValue (isMap : Bool) (body : Eval Value) : Eval Value := fun m =>
  match body m with
  | .ok value m => .ok (if isMap then value else .undefined) m
  | .error (.returned value) m => .ok value m
  | .error other m => .error other m

/-- Runs an action and leaves the scopes that it entered. -/
def leavingScopes (action : Eval Value) : Eval Value := fun m =>
  let depth := m.scopes.depth
  always action (fun m => { m with scopes := m.scopes.unwindTo depth }) m

/-- Enters a scope for a closure's body. -/
def enterScope (closure : Closure) (args : List Value) : Eval Unit := do
  if (← get).scopes.contains closure.scope then
    modify fun m => { m with scopes := m.scopes.push closure.scope closure.params args }
  else codeFault (.unknownScope closure.scope)

/-- Runs the body of a closure. -/
def runBody (env : Env) (closure : Closure) (args : List Value) : Eval Value :=
  leavingScopes do
    enterScope closure args
    match closure.compiled with
    | some chunk => chunk.run env
    | none => bodyValue closure.literal.isMap (closure.literal.body.eval env none)

/-- What a run does of its own accord: what it asks before every node and
every instruction, and how it refuses a call that is one too many. -/
structure Hooks where
  ask : Span → Eval Unit
  refuse : CallSite → Eval Value

/-- Fails for one call too many. -/
def overflow (site : CallSite) : Eval Value := fun m =>
  .error (.failed (.fault (.stackOverflow m.options.maxCallDepth) site.span)) m

/-- A run asks whether it has been stopped, and fails at a call too many. -/
def Hooks.standard : Hooks := ⟨checkCancelled, overflow⟩

/-- Counts a call while it lasts, and refuses one too many. -/
def countingCall (refusal action : Eval Value) : Eval Value := fun m =>
  if m.options.maxCallDepth ≤ m.callDepth then refusal m
  else always action (fun m => { m with callDepth := m.callDepth - 1 })
    { m with callDepth := m.callDepth + 1 }

/-- Calls a closure. `levels` bounds the nesting of calls, and `fuel` the
turns of each loop. -/
def callClosure (hooks : Hooks) (fuel : Nat) : (levels : Nat) → Caller
  | 0, _, _, _ => throw .exhausted
  | levels + 1, closure, args, site =>
      countingCall (hooks.refuse site)
        (runBody ⟨fuel, callClosure hooks fuel levels, hooks.ask, closure.source⟩ closure args)

end BoardScript
