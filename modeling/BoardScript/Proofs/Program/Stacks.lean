/-
The two stacks of the parser. Its stack has one entry for each symbol, with
the state behind the symbol; a shift-reduce machine may as well keep states
and values apart, with one state more at the bottom (`statesOf`, `valuesOf`).
Then whatever a step does, it pushes to both, or cuts as many from the end of
both and pushes, or cuts both back (`Parser.Restacks`), and there is always one
state more than there are values.
-/
import BoardScript.Proofs.Program.Accept

namespace BoardScript

open Grammar

/-- The states of a stack, from the bottom. -/
def statesOf (stack : List StackEntry) : List StateId := 0 :: (stack.map (·.state)).reverse

/-- The values of a stack with their texts, from the bottom. -/
def valuesOf (stack : List StackEntry) : List (Meaning × Option Span) :=
  (stack.map fun entry => (entry.meaning, entry.span)).reverse

section

variable (stack : List StackEntry)

theorem length_statesOf : (statesOf stack).length = (valuesOf stack).length + 1 := by
  simp [statesOf, valuesOf]

@[simp] theorem length_valuesOf : (valuesOf stack).length = stack.length := by
  simp [valuesOf]

theorem statesOf_cons (entry : StackEntry) : statesOf (entry :: stack) = statesOf stack ++ [entry.state] := by
  simp [statesOf]

theorem valuesOf_cons (entry : StackEntry) :
    valuesOf (entry :: stack) = valuesOf stack ++ [(entry.meaning, entry.span)] := by
  simp [valuesOf]

/-- The topmost state is that of the stack. -/
theorem getLast?_statesOf : (statesOf stack).getLast? = some (Parser.stateOf stack) := by
  cases stack with
  | nil => rfl
  | cons entry rest => rw [statesOf_cons, List.getLast?_concat, Parser.stateOf]

variable {stack}

theorem take_statesOf {count : Nat} (h : count ≤ stack.length) :
    (statesOf stack).take ((statesOf stack).length - count) = statesOf (stack.drop count) := by
  have hlength : (statesOf stack).length - count = stack.length - count + 1 := by
    rw [length_statesOf, length_valuesOf]
    omega
  rw [hlength, statesOf, List.take_succ_cons, statesOf]
  simp [List.take_reverse, Nat.sub_sub_self h, List.map_drop]

theorem take_valuesOf {count : Nat} (h : count ≤ stack.length) :
    (valuesOf stack).take ((valuesOf stack).length - count) = valuesOf (stack.drop count) := by
  simp [valuesOf, List.take_reverse, Nat.sub_sub_self h, List.map_drop]

theorem drop_valuesOf {count : Nat} (h : count ≤ stack.length) :
    (valuesOf stack).drop ((valuesOf stack).length - count)
      = (stack.take count).reverse.map fun entry => (entry.meaning, entry.span) := by
  simp [valuesOf, List.drop_reverse, Nat.sub_sub_self h, List.map_take]

end

namespace Parser

variable {tables : Tables} {p q : Parser}

/-- The states of a parser, from the bottom. -/
def states (p : Parser) : List StateId := statesOf p.stack

/-- The values of a parser with their texts, from the bottom. -/
def values (p : Parser) : List (Meaning × Option Span) := valuesOf p.stack

/-- What is done to the two stacks. -/
inductive Restacks (tables : Tables) (p q : Parser) : Prop
  /-- a token is pushed -/
  | push (state : StateId) (token : Token) (hstates : q.states = p.states ++ [state])
      (hvalues : q.values = p.values ++ [(.token token, some token.span)])
  /-- as many as a rule has symbols are cut off, which are there, and its head
  is pushed, with the state to go to from the one that is left on top -/
  | replace (rule : Rule) (popped : List (Meaning × Option Span)) (meaning : Meaning)
      (top state : StateId) (hcount : rule.production.body.length ≤ p.values.length)
      (hpopped : popped = p.values.drop (p.values.length - rule.production.body.length))
      (hbuild : rule.build ((Span.coverAll (popped.filterMap Prod.snd)).getD
        (.before p.lookahead.span.start)) (popped.map Prod.fst) = some meaning)
      (htop : (p.states.take (p.states.length - rule.production.body.length)).getLast? = some top)
      (hgoto : tables.goto top rule.production.head = some state)
      (hstates : q.states
        = p.states.take (p.states.length - rule.production.body.length) ++ [state])
      (hvalues : q.values = p.values.take (p.values.length - rule.production.body.length)
        ++ [(meaning, Span.coverAll (popped.filterMap Prod.snd))])
  /-- both are cut back, to one state at least -/
  | cut (keep : Nat) (hpos : 0 < keep) (hle : keep ≤ p.states.length)
      (hstates : q.states = p.states.take keep) (hvalues : q.values = p.values.take (keep - 1))

theorem restacks_shift (p : Parser) (state : StateId) : Restacks tables p (p.shift state) := by
  have hstack : (p.shift state).stack
      = ⟨state, .token p.lookahead, some p.lookahead.span⟩ :: p.stack := by
    unfold shift advance
    dsimp only
    split <;> rfl
  refine .push state p.lookahead ?_ ?_
  · rw [states, hstack, statesOf_cons, states]
  · rw [values, hstack, valuesOf_cons, values]

theorem restacks_reduce {rule : Rule} (hcount : rule.production.body.length ≤ p.stack.length)
    (h : p.reduce tables rule = some q) : Restacks tables p q := by
  obtain ⟨meaning, state, hbuild, hgoto, rfl⟩ := reduce_eq h
  refine .replace rule _ meaning _ state ?_ rfl ?_ ?_ hgoto ?_ ?_
  · rwa [values, length_valuesOf]
  · rw [values, drop_valuesOf hcount, List.filterMap_map, List.map_map]
    exact hbuild
  · rw [states, take_statesOf hcount, getLast?_statesOf]
  · rw [states, statesOf_cons, states, take_statesOf hcount]
  · rw [values, values, drop_valuesOf hcount, valuesOf_cons, take_valuesOf hcount, List.filterMap_map]
    rfl

theorem restacks_drop {count : Nat} (h : q.stack = p.stack.drop count) : Restacks tables p q := by
  -- there may be fewer to drop
  obtain ⟨drops, hle, hdrop⟩ : ∃ drops ≤ p.stack.length, q.stack = p.stack.drop drops := by
    refine ⟨min count p.stack.length, Nat.min_le_right _ _, ?_⟩
    rw [h, ← List.drop_eq_drop_min]
  have hlength : p.states.length = p.stack.length + 1 := by
    rw [states, length_statesOf, length_valuesOf]
  refine .cut (p.states.length - drops) (by omega) (Nat.sub_le _ _) ?_ ?_
  · rw [states, hdrop, states, take_statesOf hle]
  · have hkeep : p.states.length - drops - 1 = (valuesOf p.stack).length - drops := by
      rw [hlength, length_valuesOf]
      omega
    rw [hkeep, values, hdrop, values, take_valuesOf hle]

end Parser

end BoardScript
