/-
Scopes. Each activation of a function has one, numbered in the order in
which they are made and kept for good; its parent is the scope the
function was made in and never changes. Looking a name up walks from a
scope to its parent until one binds it. A parent has a smaller number than
its child, so the walk ends.

One scope is current. The ones it was entered from are suspended and come
back in reverse order.
-/
import BoardScript.Value.Basic

namespace BoardScript

/-- One environment: what it binds, and where to look further. -/
structure Scope where
  parent : Option ScopeId
  locals : List (String × Value)

instance : Inhabited Scope := ⟨⟨none, []⟩⟩

/-- Binds a name, in place of any earlier binding of it. -/
def Scope.define (name : String) (value : Value) (scope : Scope) : Scope :=
  { scope with locals := go scope.locals }
where
  go : List (String × Value) → List (String × Value)
    | [] => [(name, value)]
    | (other, old) :: rest => if other = name then (name, value) :: rest else (other, old) :: go rest

/-- All scopes, the current one, and those it was entered from, the last
of them on top. -/
structure Scopes where
  table : Array Scope
  current : ScopeId
  suspended : Array ScopeId

namespace Scopes

/-- The number of the global scope. -/
def globalId : ScopeId := 0

/-- Nothing but the global scope. -/
def start : Scopes := ⟨#[⟨none, []⟩], globalId, #[]⟩

instance : Inhabited Scopes := ⟨start⟩

def isGlobal (s : Scopes) : Bool := s.current == globalId

/-- How many activations are under way. -/
def depth (s : Scopes) : Nat := s.suspended.size

/-- The innermost binding of a name, seen from a scope. A parent that is
not older than its child is not followed. -/
def lookupFrom (table : Array Scope) (scope : ScopeId) (name : String) : Option Value :=
  match table[scope]? with
  | none => none
  | some s =>
      match s.locals.lookup name with
      | some value => some value
      | none =>
          match s.parent with
          | none => none
          | some parent => if parent < scope then lookupFrom table parent name else none
termination_by scope

/-- The innermost binding of a name, seen from the current scope. -/
def lookup (s : Scopes) (name : String) : Option Value := lookupFrom s.table s.current name

/-- Binds a name in the current scope. -/
def define (s : Scopes) (name : String) (value : Value) : Scopes :=
  { s with table := s.table.modify s.current (Scope.define name value) }

/-- The bindings of parameters; an argument that is missing is undefined,
and of two parameters of one name the last counts. -/
def bindParams (params : List String) (args : List Value) : List (String × Value) :=
  (params.zipIdx.foldl (fun scope (name, place) =>
    Scope.define name (args.getD place .undefined) scope) (⟨none, []⟩ : Scope)).locals

/-- Makes a child of `parent` that binds parameters to arguments, and
enters it. -/
def push (s : Scopes) (parent : ScopeId) (params : List String) (args : List Value) : Scopes :=
  let child := s.table.size
  let scope := ⟨some parent, bindParams params args⟩
  { s with
    table := s.table.push scope
    current := child
    suspended := s.suspended.push s.current }

/-- Whether a scope has been made. -/
def contains (s : Scopes) (scope : ScopeId) : Bool := scope < s.table.size

/-- Leaves every activation above a depth. -/
def unwindTo (s : Scopes) (depth : Nat) : Scopes :=
  match s.suspended[depth]? with
  | some scope => { s with current := scope, suspended := s.suspended.shrink depth }
  | none => s

end Scopes

end BoardScript
