/-
The language's tables have one conflict. Three tables about the grammar
are written out and checked: what a nonterminal begins with (`begins`),
what may come behind it (`ends`), and which different items can stand in
one kernel (`shared`). Each bounds what the construction computes, since
it is closed under the steps of the construction; none of the states has
to be computed for that.

From the tables it follows that two items of a state never call for
different actions on a token, except that an `if` read to its end may be
followed by an `else` that belongs to it (`action_finish`).
-/
import BoardScript.Program.Rules
import BoardScript.Proofs.Grammar.Prefix

namespace BoardScript

open Grammar Ranked

namespace Grammar.KindSet

/-- The set of the kinds of a list. -/
def ofList (kinds : List TokenKind) : KindSet :=
  kinds.foldl (fun s kind => s.union (.single kind)) .empty

/-- Whether one set is part of another, as a test. -/
def subset (a b : KindSet) : Bool := a.union b == b

theorem within_of_subset {a b : KindSet} (h : a.subset b = true) : a.Within b := by
  rw [subset, beq_iff_eq] at h
  rw [← h]
  exact within_union_left a b

@[simp] theorem contains_ofList (kinds : List TokenKind) (kind : TokenKind) :
    (ofList kinds).contains kind = true ↔ kind ∈ kinds := by
  refine foldl_done (motive := fun kinds (s : KindSet) => s.contains kind = true ↔ kind ∈ kinds)
    (by simp) (fun {done s} first h => ?_) kinds
  rw [contains_union, contains_single, Bool.or_eq_true, h, decide_eq_true_eq, List.mem_append,
    List.mem_singleton, eq_comm]

end Grammar.KindSet

theorem Grammar.Tabulated.ofProductions_starts (productions : List Production) :
    (Tabulated.ofProductions productions).starts = .ofProductions productions := rfl

namespace Lalr

/-- The productions with the facts that the tables are made from. -/
abbrev tabulated : Tabulated := .ofProductions productions

theorem sound_starts : sound tabulated.starts := (Starts.ofProductions_settled productions).2.1

theorem valid_start : Item.Valid tabulated ⟨0, 0⟩ := ⟨_, rfl, Nat.zero_le _⟩

-- ==================================================== what begins a phrase

def valueKinds : List TokenKind :=
  [.identifier, .integer, .float, .string, .functionWord, .trueWord, .falseWord, .coordX, .coordY,
   .leftParen, .leftBracket, .objectOpen]

def operandKinds : List TokenKind := [.plus, .minus, .bang] ++ valueKinds

def expressionKinds : List TokenKind := .mapWord :: operandKinds

def statementKinds : List TokenKind :=
  [.ifWord, .whileWord, .doWord, .forWord, .useWord, .deleteWord, .returnWord, .leftBrace,
   .semicolon] ++ expressionKinds

/-- The kinds that a phrase of a nonterminal can begin with. -/
def begins : NonTerminal → List TokenKind
  | .accept | .program | .statements | .statement => statementKinds
  | .assignment | .target | .power | .access | .value => valueKinds
  | .expression | .arguments | .argumentList => expressionKinds
  | .disjunction | .conjunction | .comparison | .sum | .product | .unary => operandKinds
  | .object => [.objectOpen]
  | .properties | .parameters | .parameterList => [.identifier]
  | .propertyName => [.identifier, .coordX, .coordY]

/-- Whether a nonterminal has a phrase without tokens. -/
def canBeEmpty : NonTerminal → Bool
  | .accept | .program | .statements | .arguments | .parameters => true
  | _ => false

/-- Every nonterminal, in declaration order. -/
def nonTerminals : List NonTerminal :=
  [.accept, .program, .statements, .statement, .assignment, .target, .expression, .disjunction,
   .conjunction, .comparison, .sum, .product, .unary, .power, .access, .value, .object,
   .properties, .arguments, .argumentList, .parameters, .parameterList, .propertyName]

theorem mem_nonTerminals (n : NonTerminal) : n ∈ nonTerminals := by
  cases n <;> decide

/-- Both facts, as the construction keeps them. -/
def startBound : Starts :=
  (nonTerminals.map fun n => (⟨.ofList (begins n), canBeEmpty n⟩ : Start)).toArray

private theorem startBound_checked :
    (productions.all fun p =>
      (startBound.ofSequence p.body).first.subset (startBound.of p.head).first &&
        (!(startBound.ofSequence p.body).nullable || (startBound.of p.head).nullable)) = true := by
  decide +kernel

/-- What the construction finds about beginnings is within the table. -/
theorem starts_le (n : NonTerminal) : le (tabulated.starts.of n) (startBound.of n) := by
  rw [Tabulated.ofProductions_starts]
  refine Starts.ofProductions_le (fun p hp => ?_) n
  have h := List.all_eq_true.1 startBound_checked p hp
  rw [Bool.and_eq_true] at h
  refine ⟨KindSet.within_of_subset h.1, fun hnull => ?_⟩
  simpa [hnull] using h.2

theorem starts_closed {p : Production} (hp : p ∈ productions) :
    le (tabulated.starts.ofSequence p.body) (tabulated.starts.of p.head) := by
  rw [Tabulated.ofProductions_starts]
  exact Starts.ofProductions_closed hp

theorem ofSequence_le (symbols : List Symbol) :
    le (tabulated.starts.ofSequence symbols) (startBound.ofSequence symbols) :=
  Starts.ofSequence_le starts_le symbols

-- =================================================== what follows a phrase

def closingKinds : List TokenKind :=
  [.rightParen, .rightBracket, .comma, .semicolon, .colon, .objectClose]

def comparisonKinds : List TokenKind :=
  [.equal, .notEqual, .approx, .less, .greater, .lessEqual, .greaterEqual]

/-- The kinds that can come behind a phrase of a nonterminal. -/
def ends : NonTerminal → List TokenKind
  | .accept | .program => [.endOfInput]
  | .statements => [.rightBrace, .endOfInput] ++ statementKinds
  | .statement => [.elseWord, .rightBrace, .endOfInput] ++ statementKinds
  | .assignment => [.rightParen, .semicolon]
  | .target => [.assign]
  | .expression => closingKinds
  | .disjunction => [.or, .question] ++ closingKinds
  | .conjunction => [.and, .or, .question] ++ closingKinds
  | .comparison => comparisonKinds ++ [.and, .or, .question] ++ closingKinds
  | .sum => [.plus, .minus] ++ comparisonKinds ++ [.and, .or, .question] ++ closingKinds
  | .product | .unary | .power => [.star, .slash, .percent, .plus, .minus] ++ comparisonKinds ++
      [.and, .or, .question] ++ closingKinds
  | .access | .value | .object => [.dot, .leftParen, .leftBracket, .caret, .star, .slash,
      .percent, .plus, .minus] ++ comparisonKinds ++ [.and, .or, .question] ++ closingKinds
  | .propertyName => [.assign, .dot, .leftParen, .leftBracket, .caret, .star, .slash, .percent,
      .plus, .minus] ++ comparisonKinds ++ [.and, .or, .question] ++ closingKinds
  | .properties => [.comma, .objectClose]
  | .arguments => [.rightParen, .rightBracket]
  | .argumentList => [.comma, .rightParen, .rightBracket]
  | .parameters => [.rightParen]
  | .parameterList => [.comma, .rightParen]

def endSet (n : NonTerminal) : KindSet := .ofList (ends n)

/-- Whether every nonterminal of a body has in the table what comes behind
it there. -/
def followed (head : NonTerminal) : List Symbol → Bool
  | [] => true
  | .terminal _ :: rest => followed head rest
  | .nonTerminal n :: rest =>
      (startBound.ofSequence rest).first.subset (endSet n) &&
        (!(startBound.ofSequence rest).nullable || (endSet head).subset (endSet n)) &&
        followed head rest

private theorem followed_checked :
    (productions.all fun p => followed p.head p.body) = true := by
  decide +kernel

private theorem followed_drop {head : NonTerminal} (dot : Nat) {body : List Symbol}
    (h : followed head body = true) : followed head (body.drop dot) = true := by
  induction dot generalizing body with
  | zero => exact h
  | succ dot ih =>
      rcases body with _ | ⟨_ | n, rest⟩
      · exact h
      · exact ih h
      · rw [followed, Bool.and_eq_true] at h
        exact ih h.2

/-- What comes behind a nonterminal inside a production is in the table, if
what comes behind the production is. -/
theorem follows_within {p : Production} (hp : p ∈ productions) (dot : Nat) {n : NonTerminal}
    {rest : List Symbol} (hrest : p.body.drop dot = .nonTerminal n :: rest) {following : KindSet}
    (hf : following.Within (endSet p.head)) :
    (tabulated.follows rest following).Within (endSet n) := by
  have h := followed_drop dot (List.all_eq_true.1 followed_checked p hp)
  rw [hrest, followed, Bool.and_eq_true, Bool.and_eq_true] at h
  obtain ⟨⟨hfirst, hnull⟩, -⟩ := h
  have hle := ofSequence_le rest
  have hstart := hle.1.trans (KindSet.within_of_subset hfirst)
  unfold Tabulated.follows
  split
  · next he =>
      refine KindSet.union_within hstart (hf.trans (KindSet.within_of_subset ?_))
      simpa [hle.2 he] using hnull
  · exact hstart

/-- The production of an item, with its head within the table. -/
def Bounded (item : Item) (following : KindSet) : Prop :=
  ∀ p, tabulated.productions[item.rule]? = some p → following.Within (endSet p.head)

theorem getElem?_productions (rule : Nat) :
    tabulated.productions[rule]? = productions[rule]? :=
  List.getElem?_toArray

theorem mem_productions {rule : Nat} {p : Production}
    (h : tabulated.productions[rule]? = some p) : p ∈ productions :=
  List.mem_toArray.1 (Array.mem_of_getElem? h)

theorem remaining_eq {rule : Nat} {p : Production}
    (h : tabulated.productions[rule]? = some p) (dot : Nat) :
    tabulated.remaining ⟨rule, dot⟩ = p.body.drop dot := by
  rw [Tabulated.remaining, Tabulated.body_eq h]

/-- An item with a symbol behind its dot belongs to a production. -/
theorem exists_production {item : Item} {symbol : Symbol} {rest : List Symbol}
    (h : tabulated.remaining item = symbol :: rest) :
    ∃ p, tabulated.productions[item.rule]? = some p := by
  cases hp : tabulated.productions[item.rule]? with
  | some p => exact ⟨p, rfl⟩
  | none =>
      rw [Tabulated.remaining, Tabulated.body, hp] at h
      simp at h

theorem bounded_closure {kernel : List (Item × KindSet)}
    (h : ∀ entry ∈ kernel, Bounded entry.1 entry.2) :
    ∀ entry ∈ closure tabulated kernel, Bounded entry.1 entry.2 := by
  intro entry he p hp
  rcases mem_closure.1 he with he | ⟨q, hq, -, hof⟩
  · exact h entry he p hp
  · rw [hp] at hq
    obtain rfl := Option.some.inj hq
    refine Predictions.ofKernel_all (P := fun n s => s.Within (endSet n))
      (fun ha hb => KindSet.union_within ha hb) (fun entry he n rest hrem => ?_)
      (fun q hq following hf n rest hbody => ?_) hof
    · obtain ⟨q, hq⟩ := exists_production hrem
      rw [remaining_eq hq entry.1.dot] at hrem
      exact follows_within (mem_productions hq) _ hrem (h entry he q hq)
    · exact follows_within (List.mem_toArray.1 hq) 0 hbody hf

/-- What may follow an item of a state is within the table. -/
theorem bounded_items (state : StateId) :
    ∀ entry ∈ Tables.items tabulated state, Bounded entry.1 entry.2 := by
  refine bounded_closure (Lookaheads.ofAutomaton_all
    (fun hs ht p hp => KindSet.union_within (hs p hp) (ht p hp)) (fun hs p hp => hs p hp)
    (Automaton.ofProductions_complete valid_start).start ?_ ?_ bounded_closure state)
  · intro p hp kind hkind
    obtain rfl : p = ⟨.accept, [.nonTerminal .program]⟩ := (Option.some.inj hp).symm
    rw [KindSet.contains_single, decide_eq_true_eq] at hkind
    rw [← hkind]
    decide
  · intro item p _ kind hkind
    simp at hkind

-- ============================================ what stands in one state

/-- The nonterminals from `disjunction` on, each predicting the next. -/
def chain : List NonTerminal :=
  [.disjunction, .conjunction, .comparison, .sum, .product, .unary, .power, .access, .value,
   .object]

/-- The nonterminals whose productions a nonterminal behind a dot brings
into a state. -/
def reach : NonTerminal → List NonTerminal
  | .accept => [.accept, .program, .statements]
  | .program => [.program, .statements]
  | .statement => [.statement, .assignment, .target, .expression] ++ chain
  | .assignment => [.assignment, .target, .access, .value, .object]
  | .target => [.target, .access, .value, .object]
  | .expression => .expression :: chain
  | .disjunction => chain
  | .conjunction => chain.drop 1
  | .comparison => chain.drop 2
  | .sum => chain.drop 3
  | .product => chain.drop 4
  | .unary => chain.drop 5
  | .power => chain.drop 6
  | .access => chain.drop 7
  | .value => chain.drop 8
  | .arguments => [.arguments, .argumentList, .expression] ++ chain
  | .argumentList => [.argumentList, .expression] ++ chain
  | .parameters => [.parameters, .parameterList]
  | n => [n]

/-- A nonterminal that brings in at least as much. -/
def top : NonTerminal → NonTerminal
  | .accept | .program | .statements => .accept
  | .arguments | .argumentList => .arguments
  | .parameters | .parameterList => .parameters
  | .properties => .properties
  | .propertyName => .propertyName
  | _ => .statement

private theorem reach_checked :
    (nonTerminals.all fun n => (reach n).contains n &&
      ((reach n).all fun m => (reach (top n)).contains m) &&
      productions.all fun p => !(reach n).contains p.head ||
        match p.body with
        | .nonTerminal m :: _ => (reach n).contains m
        | _ => true) = true := by
  decide +kernel

theorem self_mem_reach (n : NonTerminal) : n ∈ reach n := by
  have h := List.all_eq_true.1 reach_checked n (mem_nonTerminals n)
  rw [Bool.and_eq_true, Bool.and_eq_true] at h
  exact List.contains_iff_mem.1 h.1.1

theorem reach_top {n m : NonTerminal} (hm : m ∈ reach n) : m ∈ reach (top n) := by
  have h := List.all_eq_true.1 reach_checked n (mem_nonTerminals n)
  rw [Bool.and_eq_true, Bool.and_eq_true] at h
  exact List.contains_iff_mem.1 (List.all_eq_true.1 h.1.2 m hm)

theorem reach_closed {n m : NonTerminal} {p : Production} (hp : p ∈ productions)
    (hhead : p.head ∈ reach n) {rest : List Symbol} (hbody : p.body = .nonTerminal m :: rest) :
    m ∈ reach n := by
  have h := List.all_eq_true.1 reach_checked n (mem_nonTerminals n)
  rw [Bool.and_eq_true] at h
  have := List.all_eq_true.1 h.2 p hp
  rw [List.contains_iff_mem.2 hhead, hbody] at this
  exact List.contains_iff_mem.1 (by simpa using this)

/-- A predicted nonterminal is within reach of one behind a dot of the
kernel. -/
theorem reach_of_predicted {kernel : List Item} {n : NonTerminal}
    (h : Predicted tabulated kernel n) :
    ∃ item ∈ kernel, ∃ m rest, tabulated.remaining item = .nonTerminal m :: rest ∧
      n ∈ reach m := by
  induction h with
  | kernel hmem hrem => exact ⟨_, hmem, _, _, hrem, self_mem_reach _⟩
  | production hp _ hbody ih =>
      obtain ⟨item, hmem, m, rest, hrem, hreach⟩ := ih
      exact ⟨item, hmem, m, rest, hrem, reach_closed (List.mem_toArray.1 hp) hreach hbody⟩

/-- The kernels of more than one item, up to smaller ones: a production by
its number, and where the dot is. -/
def shared : List (List Item) :=
  [ -- blocks
   [⟨1, 1⟩, ⟨2, 1⟩], [⟨2, 1⟩, ⟨15, 2⟩], [⟨2, 1⟩, ⟨61, 6⟩],
   -- `if` with and without `else`
   [⟨4, 1⟩, ⟨5, 1⟩], [⟨4, 2⟩, ⟨5, 2⟩], [⟨4, 3⟩, ⟨5, 3⟩], [⟨4, 4⟩, ⟨5, 4⟩], [⟨4, 5⟩, ⟨5, 5⟩],
   [⟨11, 1⟩, ⟨12, 1⟩],
   -- targets and values
   [⟨18, 1⟩, ⟨59, 1⟩],
   [⟨19, 1⟩, ⟨20, 1⟩, ⟨47, 1⟩, ⟨48, 1⟩, ⟨49, 1⟩, ⟨50, 1⟩, ⟨51, 1⟩, ⟨52, 1⟩],
   [⟨19, 2⟩, ⟨50, 2⟩], [⟨19, 3⟩, ⟨50, 3⟩],
   [⟨20, 2⟩, ⟨49, 2⟩], [⟨20, 3⟩, ⟨49, 3⟩], [⟨20, 4⟩, ⟨49, 4⟩],
   -- operators, loosest first
   [⟨21, 1⟩, ⟨22, 1⟩, ⟨24, 1⟩],
   [⟨24, 3⟩, ⟨26, 1⟩], [⟨25, 1⟩, ⟨26, 1⟩],
   [⟨26, 3⟩, ⟨28, 1⟩, ⟨29, 1⟩, ⟨30, 1⟩, ⟨31, 1⟩, ⟨32, 1⟩, ⟨33, 1⟩, ⟨34, 1⟩],
   [⟨27, 1⟩, ⟨28, 1⟩, ⟨29, 1⟩, ⟨30, 1⟩, ⟨31, 1⟩, ⟨32, 1⟩, ⟨33, 1⟩, ⟨34, 1⟩],
   [⟨28, 3⟩, ⟨36, 1⟩, ⟨37, 1⟩], [⟨29, 3⟩, ⟨36, 1⟩, ⟨37, 1⟩], [⟨30, 3⟩, ⟨36, 1⟩, ⟨37, 1⟩],
   [⟨31, 3⟩, ⟨36, 1⟩, ⟨37, 1⟩], [⟨32, 3⟩, ⟨36, 1⟩, ⟨37, 1⟩], [⟨33, 3⟩, ⟨36, 1⟩, ⟨37, 1⟩],
   [⟨34, 3⟩, ⟨36, 1⟩, ⟨37, 1⟩], [⟨35, 1⟩, ⟨36, 1⟩, ⟨37, 1⟩],
   [⟨36, 3⟩, ⟨39, 1⟩, ⟨40, 1⟩, ⟨41, 1⟩], [⟨37, 3⟩, ⟨39, 1⟩, ⟨40, 1⟩, ⟨41, 1⟩],
   [⟨38, 1⟩, ⟨39, 1⟩, ⟨40, 1⟩, ⟨41, 1⟩],
   -- calls with and without attributes
   [⟨51, 2⟩, ⟨52, 2⟩], [⟨51, 3⟩, ⟨52, 3⟩], [⟨51, 4⟩, ⟨52, 4⟩],
   -- lists
   [⟨66, 1⟩, ⟨67, 1⟩], [⟨66, 2⟩, ⟨68, 1⟩], [⟨71, 1⟩, ⟨72, 1⟩], [⟨75, 1⟩, ⟨76, 1⟩]]

/-- Whether two items can stand in one kernel. -/
def share (i j : Item) : Bool :=
  i == j || shared.any fun group => group.contains i && group.contains j

/-- An item with the head of its production and what stands from the dot
on. -/
structure Dotted where
  item : Item
  head : NonTerminal
  rest : List Symbol

/-- Whether two items of a state never call for different actions, but for
the `else` of an open `if`, and lead on to items that can stand together. -/
def compatible (i j : Dotted) : Bool :=
  match i.rest, j.rest with
  | x :: _, y :: _ => x != y || share i.item.next j.item.next
  | [], [] => i.item.rule == j.item.rule ||
      !((ends i.head).any fun kind => (endSet j.head).contains kind)
  | [], .terminal kind :: _ => !(endSet i.head).contains kind ||
      (i.item.rule == 4 && kind == .elseWord)
  | [], .nonTerminal _ :: _ => true
  | _ :: _, [] => true

/-- All items of a production. -/
def dots (entry : Production × Nat) : List Dotted :=
  (List.range (entry.1.body.length + 1)).map fun dot =>
    ⟨⟨entry.2, dot⟩, entry.1.head, entry.1.body.drop dot⟩

/-- The items that a nonterminal behind a dot brings in. -/
def fresh (n : NonTerminal) : List Dotted :=
  productions.zipIdx.filterMap fun entry =>
    if (reach n).contains entry.1.head then some ⟨⟨entry.2, 0⟩, entry.1.head, entry.1.body⟩
    else none

/-- An item with its production looked up. -/
def dotted (item : Item) : Dotted :=
  ⟨item, (productions[item.rule]?.map (·.head)).getD .accept,
    (productions[item.rule]?.map (·.body.drop item.dot)).getD []⟩

private theorem fresh_checked :
    ([.accept, .statement, .arguments, .parameters, .properties, .propertyName].all fun n =>
      (fresh n).all fun i => (fresh n).all fun j => compatible i j) = true := by
  decide +kernel

private theorem dots_checked :
    (productions.zipIdx.all fun entry => (dots entry).all fun i =>
      match i.rest with
      | .nonTerminal n :: _ => (fresh n).all fun j => compatible i j && compatible j i
      | _ => true) = true := by
  decide +kernel

private theorem shared_checked :
    (shared.all fun group => group.all fun i => group.all fun j =>
      compatible (dotted i) (dotted j) &&
        match (dotted i).rest with
        | .nonTerminal n :: _ =>
            (match (dotted j).rest with
              | .nonTerminal m :: _ => n == m
              | _ => true) &&
            (fresh n).all fun k => compatible (dotted j) k && compatible k (dotted j)
        | _ => true) = true := by
  decide +kernel

theorem dotted_eq {rule : Nat} {p : Production}
    (h : tabulated.productions[rule]? = some p) (dot : Nat) :
    dotted ⟨rule, dot⟩ = ⟨⟨rule, dot⟩, p.head, p.body.drop dot⟩ := by
  rw [getElem?_productions] at h
  rw [dotted, h]
  rfl

theorem dotted_rest (item : Item) : (dotted item).rest = tabulated.remaining item := by
  cases h : tabulated.productions[item.rule]? with
  | some p =>
      obtain ⟨rule, dot⟩ := item
      rw [dotted_eq h, remaining_eq h]
  | none =>
      rw [dotted, ← getElem?_productions, h, Tabulated.remaining, Tabulated.body, h]
      simp

theorem dotted_mem_fresh {rule : Nat} {p : Production}
    (h : tabulated.productions[rule]? = some p) {n : NonTerminal} (hn : p.head ∈ reach n) :
    dotted ⟨rule, 0⟩ ∈ fresh n := by
  rw [dotted_eq h]
  refine List.mem_filterMap.2 ⟨(p, rule), ?_, ?_⟩
  · rw [List.mem_zipIdx_iff_getElem?, ← getElem?_productions]
    exact h
  · rw [if_pos (List.contains_iff_mem.2 hn)]
    rfl

theorem dotted_mem_dots {rule : Nat} {p : Production}
    (h : tabulated.productions[rule]? = some p) {dot : Nat} (hdot : dot ≤ p.body.length) :
    dotted ⟨rule, dot⟩ ∈ dots (p, rule) := by
  rw [dotted_eq h]
  exact List.mem_map.2 ⟨dot, List.mem_range.2 (Nat.lt_succ_of_le hdot), rfl⟩

-- the three ways in which two items can meet in a state

/-- Two productions brought in by the same nonterminal. -/
theorem compatible_fresh {n : NonTerminal} {i j : Dotted} (hi : i ∈ fresh n) (hj : j ∈ fresh n) :
    compatible i j = true := by
  have htop : ∀ {i}, i ∈ fresh n → i ∈ fresh (top n) := by
    intro i hi
    obtain ⟨entry, hentry, he⟩ := List.mem_filterMap.1 hi
    refine List.mem_filterMap.2 ⟨entry, hentry, ?_⟩
    split at he
    · next hin =>
        rw [if_pos (List.contains_iff_mem.2 (reach_top (List.contains_iff_mem.1 hin)))]
        exact he
    · cases he
  have hmem : top n ∈ [NonTerminal.accept, .statement, .arguments, .parameters, .properties,
      .propertyName] := by cases n <;> decide
  exact List.all_eq_true.1 (List.all_eq_true.1
    (List.all_eq_true.1 fresh_checked _ hmem) i (htop hi)) j (htop hj)

/-- An item and a production that it brings in. -/
theorem compatible_dots {item : Item} (hv : item.Valid tabulated) {n : NonTerminal}
    {rest : List Symbol} (hrem : tabulated.remaining item = .nonTerminal n :: rest) {j : Dotted}
    (hj : j ∈ fresh n) :
    compatible (dotted item) j = true ∧ compatible j (dotted item) = true := by
  obtain ⟨p, hp, hdot⟩ := hv
  have hentry : (p, item.rule) ∈ productions.zipIdx := by
    rw [List.mem_zipIdx_iff_getElem?, ← getElem?_productions]
    exact hp
  have h := List.all_eq_true.1 (List.all_eq_true.1 dots_checked _ hentry) _
    (dotted_mem_dots hp hdot)
  rw [dotted_rest, hrem] at h
  simpa using List.all_eq_true.1 h j hj

/-- Two items of a kernel, and what the one brings in. -/
theorem compatible_shared {group : List Item} (hgroup : group ∈ shared) {i j : Item}
    (hi : i ∈ group) (hj : j ∈ group) :
    compatible (dotted i) (dotted j) = true ∧
      ∀ {n rest}, tabulated.remaining i = .nonTerminal n :: rest →
        (∀ {m rest}, tabulated.remaining j = .nonTerminal m :: rest → n = m) ∧
        ∀ k ∈ fresh n, compatible (dotted j) k = true ∧ compatible k (dotted j) = true := by
  have h := List.all_eq_true.1 (List.all_eq_true.1
    (List.all_eq_true.1 shared_checked group hgroup) i hi) j hj
  rw [Bool.and_eq_true] at h
  refine ⟨h.1, fun {n rest} hrem => ?_⟩
  have h2 := h.2
  rw [dotted_rest, hrem] at h2
  simp only [Bool.and_eq_true] at h2
  refine ⟨fun {m rest} hm => ?_, fun k hk => ?_⟩
  · have h3 := h2.1
    rw [dotted_rest, hm] at h3
    exact eq_of_beq h3
  · simpa using List.all_eq_true.1 h2.2 k hk

theorem share_iff {i j : Item} :
    share i j = true ↔ i = j ∨ ∃ group ∈ shared, i ∈ group ∧ j ∈ group := by
  simp only [share, Bool.or_eq_true, beq_iff_eq, List.any_eq_true, Bool.and_eq_true,
    List.contains_iff_mem]

theorem compatible_self (i : Dotted) : compatible i i = true := by
  unfold compatible
  cases i.rest <;> simp [share]

section

variable {kernel : List Item} (hv : ∀ item ∈ kernel, item.Valid tabulated)
  (hs : ∀ i ∈ kernel, ∀ j ∈ kernel, share i j = true)

/-- An item of a state is in its kernel, or brought in by one that is. -/
theorem mem_kernel_or_fresh {i : Item} (hi : i ∈ stateItems tabulated kernel) :
    i ∈ kernel ∨ ∃ k ∈ kernel, ∃ n rest, tabulated.remaining k = .nonTerminal n :: rest ∧
      dotted i ∈ fresh n := by
  refine ((mem_stateItems sound_starts).1 hi).imp_right ?_
  rintro ⟨p, hp, hdot, hpred⟩
  obtain ⟨k, hk, n, rest, hrem, hreach⟩ := reach_of_predicted hpred
  obtain ⟨rule, dot⟩ := i
  obtain rfl : dot = 0 := hdot
  exact ⟨k, hk, n, rest, hrem, dotted_mem_fresh hp hreach⟩

include hs

/-- Two items of a kernel get along. -/
theorem compatible_kernel {i j : Item} (hi : i ∈ kernel) (hj : j ∈ kernel) :
    compatible (dotted i) (dotted j) = true := by
  rcases share_iff.1 (hs i hi j hj) with rfl | ⟨group, hg, hi, hj⟩
  · exact compatible_self _
  · exact (compatible_shared hg hi hj).1

/-- Two items of a kernel that bring others in bring in the same. -/
theorem eq_of_remaining {k l : Item} (hk : k ∈ kernel) (hl : l ∈ kernel) {n m : NonTerminal}
    {rest rest' : List Symbol} (hn : tabulated.remaining k = .nonTerminal n :: rest)
    (hm : tabulated.remaining l = .nonTerminal m :: rest') : n = m := by
  rcases share_iff.1 (hs k hk l hl) with rfl | ⟨group, hg, hk, hl⟩
  · rw [hn] at hm
    exact Symbol.nonTerminal.inj (List.cons.inj hm).1
  · exact ((compatible_shared hg hk hl).2 hn).1 hm

include hv

/-- An item of a kernel and one that is brought in. -/
theorem compatible_brought {l k : Item} (hl : l ∈ kernel) (hk : k ∈ kernel) {n : NonTerminal}
    {rest : List Symbol} (hrem : tabulated.remaining k = .nonTerminal n :: rest) {d : Dotted}
    (hd : d ∈ fresh n) :
    compatible (dotted l) d = true ∧ compatible d (dotted l) = true := by
  rcases share_iff.1 (hs k hk l hl) with rfl | ⟨group, hg, hk', hl'⟩
  · exact compatible_dots (hv k hk) hrem hd
  · exact ((compatible_shared hg hk' hl').2 hrem).2 d hd

/-- All items of a state get along, if those of its kernel do. -/
theorem compatible_stateItems {i j : Item} (hi : i ∈ stateItems tabulated kernel)
    (hj : j ∈ stateItems tabulated kernel) : compatible (dotted i) (dotted j) = true := by
  rcases mem_kernel_or_fresh hi with hik | ⟨k, hk, n, rest, hrem, hd⟩
  · rcases mem_kernel_or_fresh hj with hjk | ⟨k, hk, n, rest, hrem, hd⟩
    · exact compatible_kernel hs hik hjk
    · exact (compatible_brought hv hs hik hk hrem hd).1
  · rcases mem_kernel_or_fresh hj with hjk | ⟨l, hl, m, rest', hrem', hd'⟩
    · exact (compatible_brought hv hs hjk hk hrem hd).2
    · obtain rfl := eq_of_remaining hs hk hl hrem hrem'
      exact compatible_fresh hd hd'

end

/-- So the items of every kernel can stand together. -/
theorem share_of_reached {kernel : List Item} (h : Reached tabulated kernel) :
    ∀ i ∈ kernel, ∀ j ∈ kernel, share i j = true := by
  induction h with
  | start =>
      intro i hi j hj
      rw [List.mem_singleton.1 hi, List.mem_singleton.1 hj]
      rfl
  | @move kernel reached symbol hk hmove ih =>
      intro i hi j hj
      obtain ⟨i', hi', hsi, rfl⟩ := (mem_successors hmove).1 hi
      obtain ⟨j', hj', hsj, rfl⟩ := (mem_successors hmove).1 hj
      have h := compatible_stateItems (hk.ordered_valid valid_start).2 ih hi' hj'
      obtain ⟨restI, hri⟩ := List.head?_eq_some_iff.1 hsi
      obtain ⟨restJ, hrj⟩ := List.head?_eq_some_iff.1 hsj
      unfold compatible at h
      rw [dotted_rest, hri, dotted_rest, hrj] at h
      simp only [bne_self_eq_false, Bool.false_or] at h
      exact h

-- =========================================================== the entries

section Entries

variable {state : StateId} {kernel : List Item}
  (hk : (Automaton.ofProductions tabulated).kernels[state]? = some kernel)

include hk

theorem reached_kernel : Reached tabulated kernel :=
  (Automaton.ofProductions_complete valid_start).reached kernel (Array.mem_of_getElem? hk)

/-- An item of a state belongs to a production, and what may follow it is
within the table. -/
theorem production_of_items {item : Item} {following : KindSet}
    (h : (item, following) ∈ Tables.items tabulated state) :
    ∃ p, tabulated.productions[item.rule]? = some p ∧ item.dot ≤ p.body.length ∧
      ∀ kind, following.contains kind = true → kind ∈ ends p.head := by
  obtain ⟨p, hp, hdot⟩ := valid_of_mem_stateItems sound_starts
    ((reached_kernel hk).ordered_valid valid_start).2 (mem_stateItems_of_mem hk h)
  exact ⟨p, hp, hdot, fun kind hkind =>
    (KindSet.contains_ofList _ _).1 (bounded_items state _ h p hp kind hkind)⟩

theorem compatible_items {i j : Item} (hi : i ∈ stateItems tabulated kernel)
    (hj : j ∈ stateItems tabulated kernel) : compatible (dotted i) (dotted j) = true :=
  compatible_stateItems ((reached_kernel hk).ordered_valid valid_start).2
    (share_of_reached (reached_kernel hk)) hi hj

/-- A state shifts wherever it can. -/
theorem action_shift {kind : TokenKind} {target : StateId}
    (ht : (Automaton.ofProductions tabulated).target state (.terminal kind) = some target) :
    tables.action state kind = some (.shift target) :=
  (Tables.ofProductions_action valid_start hk kind).2.2 target (.shift ht)

/-- Where a production has been read to its end, a kind that can come behind
its head has no other action than to finish it; only an `else` is read before
an `if` is finished. -/
theorem finish_of_action {item : Item} {following : KindSet}
    (hmem : (item, following) ∈ Tables.items tabulated state)
    (hend : tabulated.remaining item = []) {p : Production}
    (hp : tabulated.productions[item.rule]? = some p) {kind : TokenKind} (hkind : kind ∈ ends p.head)
    (helse : item.rule = 4 → kind ≠ .elseWord) {action : Action}
    (h : tables.action state kind = some action) : action = finish item.rule := by
  have hitem := mem_stateItems_of_mem hk hmem
  cases (Tables.ofProductions_action valid_start hk kind).1 action h with
  | @shift target ht =>
      -- an item with the kind behind its dot would be in the way
      obtain ⟨reached, hmove, -⟩ :=
        (Automaton.ofProductions_complete valid_start).target_eq_some hk ht
      obtain ⟨other, hother, hhead⟩ := exists_of_successor hmove
      obtain ⟨rest, hrest⟩ := List.head?_eq_some_iff.1 hhead
      have h := compatible_items hk hitem hother
      unfold compatible at h
      rw [dotted_rest, hend, dotted_rest, hrest, dotted_eq hp item.dot] at h
      have hin := (KindSet.contains_ofList _ _).2 hkind
      simp only [endSet, hin, Bool.not_true, Bool.false_or, Bool.and_eq_true, beq_iff_eq] at h
      exact absurd h.2 (helse h.1)
  | @finish other following' hmem' hend' hkind' =>
      obtain ⟨q, hq, -, hends'⟩ := production_of_items hk hmem'
      have h := compatible_items hk hitem (mem_stateItems_of_mem hk hmem')
      unfold compatible at h
      rw [dotted_rest, hend, dotted_rest, hend', dotted_eq hp item.dot, dotted_eq hq other.dot] at h
      simp only [Bool.or_eq_true, beq_iff_eq, Bool.not_eq_true', List.any_eq_false] at h
      rcases h with h | h
      · rw [h]
      · exact absurd ((KindSet.contains_ofList _ _).2 (hends' kind hkind')) (h kind hkind)

/-- A state finishes a production read to its end, whatever else there is
to do; only an `else` is read before an `if` is finished. -/
theorem action_finish {item : Item} {following : KindSet}
    (hmem : (item, following) ∈ Tables.items tabulated state)
    (hend : tabulated.remaining item = []) {kind : TokenKind}
    (hkind : following.contains kind = true) (helse : item.rule = 4 → kind ≠ .elseWord) :
    tables.action state kind = some (finish item.rule) := by
  obtain ⟨chosen, hchosen⟩ := (Tables.ofProductions_action valid_start hk kind).2.1 _
    (.finish hmem hend hkind)
  obtain ⟨p, hp, -, hends⟩ := production_of_items hk hmem
  obtain rfl := finish_of_action hk hmem hend hp (hends kind hkind) helse hchosen
  exact hchosen

end Entries

end Lalr

end BoardScript
