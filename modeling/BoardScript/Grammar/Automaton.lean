/-
The automaton behind the parse tables. A state is a set of items, each a
production with a dot in it that says how much of it has been read. Its
kernel lists the items whose dot has moved; every nonterminal behind a dot
predicts its own productions, with the dot in front.

States are told apart by their kernels alone. What may follow an item is
found afterwards, by sending it along the moves from state to state until
nothing is added.
-/
import BoardScript.Grammar.First

namespace BoardScript.Grammar

/-- A production, by its number, read up to the dot. -/
structure Item where
  rule : Nat
  dot : Nat
deriving Repr, DecidableEq, Inhabited

namespace Item

def next (item : Item) : Item := ⟨item.rule, item.dot + 1⟩

def le (a b : Item) : Bool := a.rule < b.rule || (a.rule == b.rule && a.dot ≤ b.dot)

end Item

/-- A number of a state. -/
abbrev StateId := Nat

/-- Productions with the facts that the construction looks up again and
again. -/
structure Tabulated where
  productions : Array Production
  starts : Starts

namespace Tabulated

def ofProductions (productions : List Production) : Tabulated where
  productions := productions.toArray
  starts := .ofProductions productions

variable (g : Tabulated)

def body (rule : Nat) : List Symbol := (g.productions[rule]?.map (·.body)).getD []

/-- The symbols of an item from the dot on. -/
def remaining (item : Item) : List Symbol := (g.body item.rule).drop item.dot

/-- How many items there are: one for each place of the dot. -/
def itemCount : Nat := g.productions.toList.foldl (fun n p => n + p.body.length + 1) 0

end Tabulated

-- ============================================================ predictions

/-- Which nonterminals a state predicts, and what may follow each of them
there. All productions of a nonterminal are predicted together. -/
abbrev Predictions := Array (Option KindSet)

namespace Predictions

def nothing : Predictions := Array.replicate NonTerminal.count none

def add (predictions : Predictions) (n : NonTerminal) (following : KindSet) : Predictions :=
  predictions.modify n.index fun
    | none => some following
    | some known => some (known.union following)

/-- What the symbols from a dot on predict, when `following` may come
after all of them. -/
def addFrom (g : Tabulated) (predictions : Predictions) (remaining : List Symbol)
    (following : KindSet) : Predictions :=
  match remaining with
  | .nonTerminal n :: rest =>
      let after := g.starts.ofSequence rest
      predictions.add n (if after.nullable then after.first.union following else after.first)
  | _ => predictions

/-- One round: every production of a predicted nonterminal predicts in
turn. -/
def spread (g : Tabulated) (predictions : Predictions) : Predictions :=
  g.productions.foldl (fun acc p =>
    match acc.getD p.head.index none with
    | none => acc
    | some following => acc.addFrom g p.body following) predictions

/-- All that the items of a kernel predict. -/
def ofKernel (g : Tabulated) (kernel : List (Item × KindSet)) : Predictions :=
  settle (spread g) (NonTerminal.count * (TokenKind.all.length + 1) + 1)
    (kernel.foldl (fun acc (item, following) => acc.addFrom g (g.remaining item) following) nothing)

end Predictions

/-- The items of a state with what may follow each: the kernel, then the
predicted productions. -/
def closure (g : Tabulated) (kernel : List (Item × KindSet)) : List (Item × KindSet) :=
  let predictions := Predictions.ofKernel g kernel
  let predicted := g.productions.toList.zipIdx.filterMap fun (p, rule) =>
    (predictions.getD p.head.index none).map fun following => (⟨rule, 0⟩, following)
  kernel ++ predicted

-- ================================================================= states

/-- A set of items as a list without repetition in one order. -/
def insertItem (item : Item) : List Item → List Item
  | [] => [item]
  | other :: rest =>
      if item = other then other :: rest
      else if item.le other then item :: other :: rest
      else other :: insertItem item rest

/-- The kernels reached by reading each symbol that stands behind a dot. -/
def successors (g : Tabulated) (kernel : List Item) : List (Symbol × List Item) :=
  let items := (closure g (kernel.map fun item => (item, .empty))).map (·.1)
  items.foldl (fun acc item =>
    match g.remaining item with
    | [] => acc
    | symbol :: _ =>
        match acc.lookup symbol with
        | none => acc ++ [(symbol, [item.next])]
        | some _ => acc.map fun (s, reached) =>
            if s = symbol then (s, insertItem item.next reached) else (s, reached)) []

/-- States found so far by their kernels, and for each of the first of
them where its moves lead. -/
structure Automaton where
  kernels : Array (List Item)
  moves : Array (List (Symbol × StateId))

namespace Automaton

/-- The number of the state with a kernel, which is added if it is new. -/
def intern (kernels : Array (List Item)) (kernel : List Item) : Array (List Item) × StateId :=
  match kernels.findIdx? (· == kernel) with
  | some state => (kernels, state)
  | none => (kernels.push kernel, kernels.size)

/-- Finds the moves of the first state that has none yet. -/
def expand (g : Tabulated) (a : Automaton) (kernel : List Item) : Automaton :=
  let (kernels, row) := (successors g kernel).foldl (fun (kernels, row) (symbol, reached) =>
    let (kernels, target) := intern kernels reached
    (kernels, row ++ [(symbol, target)])) (a.kernels, [])
  ⟨kernels, a.moves.push row⟩

/-- Expands state after state until every one has its moves. -/
def explore (g : Tabulated) : (fuel : Nat) → Automaton → Automaton
  | 0, a => a
  | fuel + 1, a =>
      match a.kernels[a.moves.size]? with
      | none => a
      | some kernel => explore g fuel (a.expand g kernel)

/-- The automaton of a list of productions; state zero is about to read
production zero. A state is a set of items, which bounds their number. -/
def ofProductions (g : Tabulated) : Automaton :=
  explore g (Nat.pow 2 g.itemCount) ⟨#[[⟨0, 0⟩]], #[]⟩

def target (a : Automaton) (state : StateId) (symbol : Symbol) : Option StateId :=
  (a.moves.getD state []).lookup symbol

end Automaton

-- ============================================================= lookaheads

/-- For each state, what may follow each item of its kernel. -/
abbrev Lookaheads := Array (List KindSet)

namespace Lookaheads

/-- Only the start item is followed by anything yet: the end of input. -/
def initial (a : Automaton) : Lookaheads :=
  (a.kernels.map fun kernel => kernel.map fun _ => KindSet.empty).modify 0
    fun sets => sets.map fun _ => KindSet.single .endOfInput

/-- The kernel of a state with what may follow its items. -/
def kernel (a : Automaton) (lookaheads : Lookaheads) (state : StateId) : List (Item × KindSet) :=
  (a.kernels.getD state []).zip (lookaheads.getD state [])

/-- Adds to what may follow an item of a kernel. -/
def addAt (kernel : List Item) (item : Item) (following : KindSet) (sets : List KindSet) :
    List KindSet :=
  (kernel.zip sets).map fun (other, known) =>
    if other = item then known.union following else known

/-- Sends what may follow the items of a state along its moves. -/
def sendFrom (g : Tabulated) (a : Automaton) (lookaheads : Lookaheads) (state : StateId) :
    Lookaheads :=
  (closure g (lookaheads.kernel a state)).foldl (fun acc (item, following) =>
    match (g.remaining item).head?.bind (a.target state) with
    | none => acc
    | some reached => acc.modify reached (addAt (a.kernels.getD reached []) item.next following))
    lookaheads

/-- One round over all states. -/
def sendAll (g : Tabulated) (a : Automaton) (lookaheads : Lookaheads) : Lookaheads :=
  (List.range a.kernels.size).foldl (sendFrom g a) lookaheads

/-- What may follow the kernel items of every state. Every round but the
last adds a kind to some item, which bounds the rounds. -/
def ofAutomaton (g : Tabulated) (a : Automaton) : Lookaheads :=
  let kernelItems := a.kernels.toList.foldl (fun n kernel => n + kernel.length) 0
  settle (sendAll g a) (kernelItems * TokenKind.all.length + 1) (initial a)

end Lookaheads

end BoardScript.Grammar
