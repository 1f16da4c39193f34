/-
Calls. Whatever is called, the arguments are values by then; only a
creator takes attributes. How the body of a closure is run is left to a
parameter, so that the two ways of running bodies can share everything
else.
-/
import BoardScript.Run.Builtin

namespace BoardScript

/-- Where a call stands: its span, the text of what is called, the name
its result is assigned to, and the program text. -/
structure CallSite where
  span : Span
  callee : String
  naming : Option String
  source : Source

/-- A way of calling closures. -/
abbrev Caller := Closure → List Value → CallSite → Eval Value

/-- What evaluation depends on and does not change: how often a loop may
go round, how closures are called, what is asked before every node and
every instruction, and the program text. -/
structure Env where
  fuel : Nat
  call : Caller
  ask : Span → Eval Unit
  source : Source

/-- Arguments that have to be numbers. -/
def numbers (function : String) (span : Span) : List Value → Eval (List Float)
  | [] => pure []
  | .number x :: rest => return x :: (← numbers function span rest)
  | other :: _ => fault (.argumentType function [.number] other.type) span

/-- Has a creator make an element and keeps a record of it. Without
attributes the element is named after the variable it is assigned to. -/
def invokeCreator (creator : Creator) (parents : List Value) (attributes : Option Fields)
    (site : CallSite) : Eval Value := do
  let attributes := match attributes, site.naming with
    | some attributes, _ => attributes
    | none, some name => [("name", .string name)]
    | none, none => []
  let host := (← get).host
  let made ← askHost (fun heap => host.invoke heap creator.session creator.name parents attributes)
    (.creatorFailed creator.name) site.span
  match made with
  | .host ref =>
      let lastByte := max site.span.stop (site.span.start + 1) - 1
      let record := ⟨ref, site.source.lineOf site.span.start, site.source.lineOf lastByte⟩
      modify fun m => { m with created := m.created.push record }
  | _ => pure ()
  return made

/-- Calls a value. -/
def callValue (call : Caller) (callee : Value) (args : List Value) (attributes : Option Fields)
    (site : CallSite) : Eval Value :=
  match callee, attributes with
  | .creator creator, _ => invokeCreator creator args attributes site
  | _, some _ => fault .unexpectedAttributes site.span
  | .closure closure, none => call closure args site
  | .builtin builtin, none => builtin.call args site.span
  | .math function, none => do
      return .number (function.apply (← numbers function.name site.span args))
  | .method receiver name, none =>
      askHost (fun heap => heap.callMethod receiver name args) .host site.span
  | other, none => fault (.notCallable site.callee other.type) site.span

end BoardScript
