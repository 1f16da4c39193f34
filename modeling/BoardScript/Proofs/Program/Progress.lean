/-
The parser always gets on, whatever the tokens. At every step, also behind
a recovery, the symbols on the stack lead from state to state and each has
a meaning of its sort (`Sound`), so that a rule finds what it needs and the
symbol it leaves has somewhere to go.

That the parser ends is seen by a cost that every step lowers (`cost`). A
symbol on the stack costs more than any chain of rules that pass one symbol
on, and a token costs more than reading it adds. A rule of no symbols is
used only where a token is on top, or nothing. A recovery that drops no
token marks the token as one that has failed before, and the next recovery
drops it.
-/
import BoardScript.Proofs.Program.Accept
import BoardScript.Proofs.Program.Follow
import BoardScript.Proofs.Program.Stacks
import BoardScript.Proofs.Token.Bytes

namespace BoardScript

open Grammar Lalr

-- ============================================================ the grammar

/-- How far up a nonterminal stands where rules pass one symbol on. -/
def rank : NonTerminal → Nat
  | .value | .parameters | .program => 1
  | .access => 2
  | .power => 3
  | .unary => 4
  | .product => 5
  | .sum => 6
  | .comparison => 7
  | .conjunction => 8
  | .disjunction => 9
  | .expression => 10
  | .argumentList => 11
  | .arguments => 12
  | .accept => 2
  | _ => 0

theorem rank_lt (n : NonTerminal) : rank n < 16 := by cases n <;> decide

private theorem rank_checked :
    (productions.all fun p => match p.body with
      | [.nonTerminal m] => rank m < rank p.head
      | _ => true) = true := by
  decide +kernel

/-- A rule that passes one symbol on leads upwards. -/
theorem rank_lt_head {index : Nat} {rule : Rule} (hrule : rules[index]? = some rule)
    {m : NonTerminal} (hbody : rule.production.body = [.nonTerminal m]) :
    rank m < rank rule.production.head := by
  have h := List.all_eq_true.1 rank_checked _ (mem_productions (tabulated_production hrule))
  rw [hbody] at h
  exact of_decide_eq_true h

/-- The nonterminals that may stand for nothing. -/
def hollow : List NonTerminal := [.statements, .arguments, .parameters]

private theorem hollow_checked :
    (productions.all fun p => (p.body != [] || hollow.contains p.head) &&
      (p.body.zip p.body.tail).all fun
        | (.nonTerminal _, .nonTerminal m) => (reach m).all fun n => !hollow.contains n
        | _ => true) = true := by
  decide +kernel

/-- Behind a nonterminal no rule of no symbols begins. -/
theorem not_hollow {item : Item} {n m : NonTerminal} {rest rest' : List Symbol}
    (hn : tabulated.remaining item = .nonTerminal n :: rest)
    (hm : tabulated.remaining item.next = .nonTerminal m :: rest') {index : Nat} {rule : Rule}
    (hrule : rules[index]? = some rule) (hreach : rule.production.head ∈ reach m) :
    rule.production.body ≠ [] := by
  obtain ⟨p, hp⟩ := exists_production hn
  have hnext : (p.body.zip p.body.tail)[item.dot]? = some (.nonTerminal n, .nonTerminal m) := by
    rw [remaining_eq hp item.dot] at hn
    rw [Item.next, remaining_eq hp, ← List.drop_drop, hn] at hm
    have htail : p.body.tail.drop item.dot = .nonTerminal m :: rest' := by
      rw [List.drop_tail, ← List.drop_drop, hn]
      exact hm
    rw [List.getElem?_zip_eq_some]
    exact ⟨by rw [← List.head?_drop, hn]; rfl, by rw [← List.head?_drop, htail]; rfl⟩
  have hpair := (Bool.and_eq_true_iff.1 (List.all_eq_true.1 hollow_checked p (mem_productions hp))).2
  have hall := List.all_eq_true.1 hpair _ (List.mem_of_getElem? hnext)
  have hnot := List.all_eq_true.1 hall _ hreach
  intro hempty
  have hhollow := (Bool.and_eq_true_iff.1 (List.all_eq_true.1 hollow_checked _
    (mem_productions (tabulated_production hrule)))).1
  simp only [hempty, bne_self_eq_false, Bool.false_or] at hhollow
  rw [hhollow] at hnot
  cases hnot

private theorem programs_checked :
    (productions.zipIdx.all fun entry => entry.2 == 0 ||
      !entry.1.body.contains (.nonTerminal .program)) = true := by
  decide +kernel

/-- A program stands in the start rule only. -/
theorem program_notMem_body {index : Nat} {rule : Rule} (hrule : rules[index]? = some rule)
    (hindex : index ≠ 0) : .nonTerminal .program ∉ rule.production.body := by
  have hentry : (rule.production, index) ∈ productions.zipIdx := by
    rw [List.mem_zipIdx_iff_getElem?, ← getElem?_productions]
    exact tabulated_production hrule
  have hchecked := List.all_eq_true.1 programs_checked _ hentry
  simp only [Bool.or_eq_true, beq_iff_eq, Bool.not_eq_true', List.contains_eq_mem,
    decide_eq_false_iff_not] at hchecked
  exact hchecked.resolve_left hindex

-- ========================================================== the invariant

section

variable {tables : Tables}

/-- Each symbol on the stack has a meaning of its sort. -/
def Meant (stack : List StackEntry) (symbols : List Symbol) : Prop :=
  List.Forall₂ (fun entry symbol => entry.meaning.Sorted .anything symbol.sort) stack symbols

theorem Path.drop {D : Driver tables} {stack : List StackEntry} {symbols : List Symbol}
    (h : Path D stack symbols) (count : Nat) : Path D (stack.drop count) (symbols.drop count) := by
  induction h generalizing count with
  | nil => simpa using Path.nil
  | cons below ht ih =>
      cases count with
      | zero => exact .cons below ht
      | succ count => exact ih count

theorem Meant.drop {stack : List StackEntry} {symbols : List Symbol} (h : Meant stack symbols)
    (count : Nat) : Meant (stack.drop count) (symbols.drop count) :=
  List.forall₂_drop count h

/-- What is known of the topmost symbols, in the order of a rule's body. -/
theorem forall₂_parts {R : StackEntry → Symbol → Prop} {stack : List StackEntry}
    {symbols body : List Symbol} (h : List.Forall₂ R stack symbols)
    (htake : symbols.take body.length = body.reverse) :
    List.Forall₂ R (stack.take body.length).reverse body := by
  have htop := List.forall₂_take body.length h
  rw [htake] at htop
  simpa only [List.reverse_reverse] using List.forall₂_reverse_iff.2 htop

/-- The meanings of the topmost symbols are of the sorts of a rule's body. -/
theorem sorted_parts {lex : Lexicon} {stack : List StackEntry} {symbols body : List Symbol}
    (h : List.Forall₂ (fun entry symbol => entry.meaning.Sorted lex symbol.sort) stack symbols)
    (htake : symbols.take body.length = body.reverse) :
    List.Forall₂ (fun symbol m => m.Sorted lex symbol.sort) body
      ((stack.take body.length).reverse.map (·.meaning)) := by
  rw [List.forall₂_map_right_iff]
  exact (forall₂_parts h htake).flip

/-- Tokens of which the last is the end of input. -/
def Ended (tokens : List Token) : Prop :=
  ∃ last, tokens.getLast? = some last ∧ last.kind = .endOfInput

theorem Ended.behind {skipped rest : List Token} {token : Token}
    (h : Ended (skipped ++ token :: rest)) : Ended (token :: rest) := by
  obtain ⟨last, hlast, hkind⟩ := h
  rw [List.getLast?_append_of_ne_nil _ (List.cons_ne_nil _ _)] at hlast
  exact ⟨last, hlast, hkind⟩

theorem Ended.after {rest : List Token} {token : Token} (h : Ended (token :: rest))
    (front : List Token) : Ended (front ++ token :: rest) := by
  obtain ⟨last, hlast, hkind⟩ := h
  exact ⟨last, by rw [List.getLast?_append_of_ne_nil _ (List.cons_ne_nil _ _), hlast], hkind⟩

/-- In front of the end of input there is another token. -/
theorem Ended.tail {first : Token} {rest : List Token} (h : Ended (first :: rest))
    (hfirst : first.kind ≠ .endOfInput) :
    ∃ token others, rest = token :: others ∧ Ended (token :: others) := by
  cases rest with
  | nil =>
      obtain ⟨last, hlast, hkind⟩ := h
      obtain rfl := Option.some.inj hlast
      exact absurd hkind hfirst
  | cons token others => exact ⟨token, others, rfl, Ended.behind (show Ended ([first] ++ token :: others) from h)⟩

/-- A parser that can go on: its stack is spelled by symbols, its tokens end
with the end of input, and if it has met an error it has one on record. -/
structure Parser.Sound (D : Driver tables) (symbols : List Symbol) (p : Parser) : Prop where
  path : Path D p.stack symbols
  meant : Meant p.stack symbols
  ended : Ended (p.lookahead :: p.rest)
  errors : p.errors ≠ [] ∨ p.lastError = none

-- =============================================================== the cost

/-- What the topmost symbol adds to the cost of the stack. -/
def level : List Symbol → Nat
  | .nonTerminal n :: _ => 15 - rank n
  | _ => 32

theorem level_le (symbols : List Symbol) : level symbols ≤ 32 := by
  unfold level
  split <;> omega

theorem level_nonTerminal_le (n : NonTerminal) (symbols : List Symbol) :
    level (.nonTerminal n :: symbols) ≤ 15 :=
  Nat.sub_le _ _

/-- Replacing the body of a rule by its head lowers the cost of the stack,
also if the body is empty and what it is put on is no nonterminal. -/
theorem level_reduce {index : Nat} {rule : Rule} (hrule : rules[index]? = some rule)
    {symbols : List Symbol}
    (htake : symbols.take rule.production.body.length = rule.production.body.reverse)
    (hempty : rule.production.body = [] → level symbols = 32) :
    16 * (symbols.drop rule.production.body.length).length + 16 +
        level (.nonTerminal rule.production.head :: symbols.drop rule.production.body.length)
      < 16 * symbols.length + level symbols := by
  have hhead := level_nonTerminal_le rule.production.head
    (symbols.drop rule.production.body.length)
  have hlength : rule.production.body.length ≤ symbols.length := by
    have h := congrArg List.length htake
    rw [List.length_take, List.length_reverse] at h
    omega
  rw [List.length_drop]
  match hbody : rule.production.body with
  | [] =>
      rw [hbody] at hhead
      have := hempty hbody
      simp only [List.length_nil, List.drop_zero] at hhead ⊢
      omega
  | [.terminal kind] =>
      rw [hbody] at hhead htake hlength
      obtain ⟨others, rfl⟩ : ∃ others, symbols = .terminal kind :: others := by
        cases symbols with
        | nil => cases htake
        | cons symbol others => exact ⟨others, by rw [(List.cons.inj htake).1]⟩
      simp only [level, List.length_cons] at hhead ⊢
      omega
  | [.nonTerminal m] =>
      have hrank := rank_lt_head hrule hbody
      have hbound := rank_lt rule.production.head
      rw [hbody] at htake hlength
      obtain ⟨others, rfl⟩ : ∃ others, symbols = .nonTerminal m :: others := by
        cases symbols with
        | nil => cases htake
        | cons symbol others => exact ⟨others, by rw [(List.cons.inj htake).1]⟩
      simp only [level, List.length_cons]
      omega
  | _ :: _ :: others =>
      rw [hbody] at hhead hlength
      simp only [List.length_cons] at hhead hlength ⊢
      omega

namespace Parser

/-- Whether the token at hand has failed before. -/
def repeated (p : Parser) : Bool := !p.shifted && p.lastError == some p.lookahead.span.start

/-- What the next recovery may add to the cost of the stack. -/
def penalty (p : Parser) : Nat := if p.repeated then 0 else 33

theorem penalty_le (p : Parser) : p.penalty ≤ 33 := by
  unfold penalty
  split <;> omega

/-- The tokens to be read, and the semicolon that may be supplied. -/
def awaited (p : Parser) : Nat := p.rest.length + if p.supplied then 0 else 2

/-- An upper bound for the number of steps to come. -/
def cost (symbols : List Symbol) (p : Parser) : Nat :=
  16 * symbols.length + level symbols + 82 * p.awaited + p.penalty

variable {D : Driver tables} {symbols : List Symbol} {p : Parser}

/-- A token that is read is not the last. -/
theorem shift_eq (h : p.Sound D symbols) {state : StateId}
    (haction : tables.action p.state p.lookahead.kind = some (.shift state)) :
    D.target p.state (.terminal p.lookahead.kind) = some state ∧
      ∃ next others, p.rest = next :: others ∧ Ended (next :: others) ∧ p.shift state = { p with
        stack := ⟨state, .token p.lookahead, some p.lookahead.span⟩ :: p.stack, shifted := true,
        lookahead := next, rest := others } := by
  obtain ⟨ht, hkind⟩ := D.shifted h.path.state haction
  obtain ⟨next, others, hrest, hended⟩ := h.ended.tail hkind
  refine ⟨ht, next, others, hrest, hended, ?_⟩
  rw [Parser.shift, Parser.advance]
  simp only [hrest]

/-- Reading a token. -/
theorem sound_shift (h : p.Sound D symbols) {state : StateId}
    (haction : tables.action p.state p.lookahead.kind = some (.shift state)) :
    (p.shift state).Sound D (.terminal p.lookahead.kind :: symbols) ∧
      (p.shift state).cost (.terminal p.lookahead.kind :: symbols) < p.cost symbols := by
  obtain ⟨ht, next, others, hrest, hended, hshift⟩ := shift_eq h haction
  refine ⟨hshift ▸ ⟨.cons h.path ht, .cons (.token _ rfl trivial) h.meant, hended, h.errors⟩, ?_⟩
  have hlevel := level_le (.terminal p.lookahead.kind :: symbols)
  have hpenalty := (p.shift state).penalty_le
  have hawaited : (p.shift state).awaited + 1 = p.awaited := by
    rw [hshift]
    simp only [awaited, hrest, List.length_cons]
    omega
  simp only [cost, List.length_cons]
  omega

/-- A rule without symbols is used on top of a token only, or of nothing. -/
theorem level_hollow (h : p.Sound D symbols) {index : Nat} (hindex : index ≠ 0) {rule : Rule}
    (hrule : rules[index]? = some rule) {following : KindSet}
    (hmem : D.items p.state ⟨index, 0⟩ following) (hempty : rule.production.body = []) :
    level symbols = 32 := by
  obtain ⟨-, item, known, m, rest, hitem, hbegun, hrem, hreach⟩ :=
    D.begun h.path.state hmem hrule hindex
  have hpath := h.path
  generalize p.stack = stack at hpath hitem
  cases hpath with
  | nil => rfl
  | @cons entry stack symbol symbols below ht =>
      obtain ⟨-, -, horigin⟩ := D.moved below.state ht
      obtain ⟨hstart, hback⟩ := horigin hitem
      obtain ⟨dot, hdot⟩ := Nat.exists_eq_succ_of_ne_zero (hbegun.resolve_left hstart)
      obtain ⟨-, rest', hrest'⟩ := hback hdot
      cases symbol with
      | terminal kind => rfl
      | nonTerminal n =>
          have hnext : Item.next ⟨item.rule, dot⟩ = item := by
            rw [Item.next, ← Nat.succ_eq_add_one, ← hdot]
          exact absurd hempty (not_hollow hrest' (by rw [hnext]; exact hrem) hrule hreach)

/-- Replacing the body of a rule by its head. -/
theorem sound_reduce (h : p.Sound D symbols) {index : Nat}
    (haction : tables.action p.state p.lookahead.kind = some (.reduce index)) :
    ∃ rule q, rules[index]? = some rule ∧ p.reduce tables rule = some q ∧
      q.Sound D (.nonTerminal rule.production.head ::
        symbols.drop rule.production.body.length) ∧
      q.cost (.nonTerminal rule.production.head ::
        symbols.drop rule.production.body.length) < p.cost symbols := by
  obtain ⟨hindex, rule, following, hrule, hmem, -⟩ := D.finished h.path.state haction
  obtain ⟨htake, known, hbottom⟩ := h.path.finished haction hrule
  -- the parts are of the sorts of the body, and so the rule builds
  have hparts := sorted_parts h.meant htake
  let covered := Span.coverAll
    ((p.stack.take rule.production.body.length).reverse.filterMap (·.span))
  obtain ⟨m, hbuild, hsorted⟩ := rules_sorted .anything hrule
    (covered.getD (.before p.lookahead.span.start)) _ hparts
  -- the head has somewhere to go from the state below
  have hbelow := h.path.drop rule.production.body.length
  obtain ⟨⟨item, f, rest, hitem, hrem⟩, -⟩ := D.begun hbelow.state hbottom hrule hindex
  obtain ⟨target, -, ht, -⟩ := D.advance hbelow.state hitem hrem
  have hgoto := (D.goto rule.production.head hbelow.state).trans ht
  refine ⟨rule, { p with
    stack := ⟨target, m, covered⟩ :: p.stack.drop rule.production.body.length }, hrule, ?_, ?_, ?_⟩
  · unfold Parser.reduce
    simp only [covered] at hbuild
    simp only [hbuild, hgoto, Option.bind_eq_bind, Option.bind_some, Option.pure_def, covered]
  · exact ⟨.cons hbelow ht, .cons hsorted (h.meant.drop _), h.ended, h.errors⟩
  · have hlevel : 16 * (symbols.drop rule.production.body.length).length + 16 +
        level (.nonTerminal rule.production.head :: symbols.drop rule.production.body.length)
          < 16 * symbols.length + level symbols :=
      level_reduce hrule htake fun hempty =>
        level_hollow h hindex hrule (by rw [hempty] at hmem; exact hmem) hempty
    simp only [cost, List.length_cons]
    show _ + 82 * p.awaited + p.penalty < _
    omega

/-- When the start rule has been read to its end, a program is on top, and is
made of the texts of tokens. -/
theorem step_accept {lex : Lexicon} (hpath : Path D p.stack symbols)
    (hmeant : List.Forall₂ (fun entry symbol => entry.meaning.Sorted lex symbol.sort) p.stack symbols)
    (haction : tables.action p.state p.lookahead.kind = some .accept) :
    ∃ root, p.step tables = .done ⟨some root, p.errors⟩ ∧ root.isBlock = true ∧ root.Proper lex := by
  obtain ⟨-, f, hmem⟩ := D.accepted hpath.state haction
  obtain ⟨htake, -⟩ := hpath.item rfl hmem
  unfold Parser.step
  rw [haction]
  cases hstack : p.stack with
  | nil =>
      rw [hstack] at hmeant
      cases hmeant
      cases htake
  | cons entry stack =>
      rw [hstack] at hmeant
      cases hmeant with
      | @cons _ symbol _ symbols hsorted _ =>
          obtain rfl : symbol = .nonTerminal .program := (List.cons.inj htake).1
          obtain ⟨state, meaning, span⟩ := entry
          cases hsorted with
          | @program root hblock hproper => exact ⟨root, rfl, hblock, hproper⟩

/-- Supplying a semicolon. -/
theorem sound_supply (h : p.Sound D symbols) (hcan : p.canSupplySemicolon tables = true) :
    p.supplySemicolon.Sound D symbols ∧ p.supplySemicolon.cost symbols < p.cost symbols := by
  refine ⟨⟨h.path, h.meant, h.ended.after [_], h.errors⟩, ?_⟩
  have hsupplied : p.supplied = false := by
    simp only [canSupplySemicolon, Bool.and_eq_true, Bool.not_eq_true'] at hcan
    exact hcan.1.1.2
  have hawaited : p.supplySemicolon.awaited + 1 = p.awaited := by
    simp only [awaited, supplySemicolon, hsupplied, List.length_cons, if_true,
      Bool.false_eq_true, if_false]
  have hpenalty := p.supplySemicolon.penalty_le
  simp only [cost]
  omega

/-- Resuming drops symbols and tokens. -/
theorem resume_spec {stack stack' : List StackEntry} {token token' : Token}
    {rest rest' : List Token}
    (h : resume tables stack token rest = some (stack', token', rest')) :
    (∃ drops, stack' = stack.drop drops) ∧
      ∃ skipped, token :: rest = skipped ++ token' :: rest' := by
  fun_induction resume tables stack token rest with
  | case1 => cases h
  | case2 =>
      cases h
      exact ⟨⟨_, rfl⟩, [], rfl⟩
  | case3 => cases h
  | case4 token hkind hdrops next rest ih =>
      obtain ⟨hdrop, skipped, hskip⟩ := ih h
      exact ⟨hdrop, token :: skipped, congrArg (List.cons token) hskip⟩

/-- Resuming with an error on record. The stack may get a token on top, and
where no token is dropped the one at hand has failed before if it had. -/
theorem sound_resume {q : Parser} (h : q.Sound D symbols) (herrors : q.errors ≠ [])
    {stack : List StackEntry} {token : Token} {rest : List Token}
    (hresume : resume tables q.stack q.lookahead q.rest = some (stack, token, rest)) :
    ∃ drops, stack = q.stack.drop drops ∧
      Sound D (symbols.drop drops) { q with stack, lookahead := token, rest } ∧
      cost (symbols.drop drops) { q with stack, lookahead := token, rest }
        ≤ 16 * symbols.length + 32 + 82 * q.awaited + q.penalty := by
  obtain ⟨⟨drops, rfl⟩, skipped, hskip⟩ := resume_spec hresume
  have hended := h.ended
  rw [hskip] at hended
  refine ⟨drops, rfl, ⟨h.path.drop drops, h.meant.drop drops, hended.behind, .inl herrors⟩, ?_⟩
  have hlevel := level_le (symbols.drop drops)
  have hlength : (symbols.drop drops).length ≤ symbols.length := by
    rw [List.length_drop]
    omega
  cases skipped with
  | nil =>
      obtain ⟨rfl, rfl⟩ := List.cons.inj hskip
      show _ + 82 * q.awaited + q.penalty ≤ _
      omega
  | cons first skipped =>
      have hrest := congrArg List.length hskip
      simp only [List.length_cons, List.length_append, List.cons_append] at hrest
      have hpenalty := penalty_le { q with stack := q.stack.drop drops, lookahead := token, rest }
      have hawaited : awaited { q with stack := q.stack.drop drops, lookahead := token, rest } + 1
          ≤ q.awaited := by
        simp only [awaited]
        omega
      rw [cost]
      omega

/-- The parser with the token at hand marked as the last that failed. -/
def marked (p : Parser) : Parser :=
  { p with lastError := some p.lookahead.span.start, shifted := false }

/-- Where a recovery goes on. A new error is put on record and the token may
be kept; a token that has failed before is dropped. -/
theorem recover_ok {q : Parser} (hq : p.recover tables = .ok q) :
    ∃ r stack token rest, q = { r with stack, lookahead := token, rest } ∧
      resume tables r.stack r.lookahead r.rest = some (stack, token, rest) ∧
      (p.repeated = false ∧ r = recordError tables p.marked ∨
        p.repeated = true ∧ p.lookahead.kind ≠ .endOfInput ∧ r = p.marked.advance) := by
  unfold recover at hq
  cases hrep : p.repeated with
  | false =>
      have hnew : (!p.shifted && p.lastError == some p.lookahead.span.start) = false := hrep
      simp only [hnew, Bool.false_and, Bool.false_eq_true, if_false] at hq
      split at hq
      · cases hq
      rename_i stack token rest hresume
      exact ⟨_, stack, token, rest, (Except.ok.inj hq).symm, hresume, .inl ⟨rfl, rfl⟩⟩
  | true =>
      have hagain : (!p.shifted && p.lastError == some p.lookahead.span.start) = true := hrep
      simp only [hagain, Bool.true_and, if_true] at hq
      split at hq
      · cases hq
      rename_i hkind
      split at hq
      · cases hq
      rename_i stack token rest hresume
      exact ⟨_, stack, token, rest, (Except.ok.inj hq).symm, hresume,
        .inr ⟨rfl, by simpa using hkind, rfl⟩⟩

/-- Behind a token that is dropped there is another. -/
theorem advance_marked (h : p.Sound D symbols) (hkind : p.lookahead.kind ≠ .endOfInput) :
    ∃ next others, p.rest = next :: others ∧ Ended (next :: others) ∧
      p.marked.advance = { p.marked with lookahead := next, rest := others } := by
  obtain ⟨next, others, hrest, hended⟩ := h.ended.tail hkind
  refine ⟨next, others, hrest, hended, ?_⟩
  simp only [advance, marked, hrest]

/-- What a recovery that goes on leaves: some of the tokens, and the token
that failed marked. -/
theorem recover_spec (h : p.Sound D symbols) {q : Parser} (hq : p.recover tables = .ok q) :
    q.options = p.options ∧ q.lastError = some p.lookahead.span.start ∧ q.shifted = false ∧
      ∃ skipped, p.lookahead :: p.rest = skipped ++ q.lookahead :: q.rest := by
  obtain ⟨r, stack, token, rest, rfl, hresume, ⟨-, rfl⟩ | ⟨-, hkind, rfl⟩⟩ := recover_ok hq
  · obtain ⟨-, hskip⟩ := resume_spec hresume
    exact ⟨rfl, rfl, rfl, hskip⟩
  · obtain ⟨next, others, hrest, -, hadvance⟩ := advance_marked h hkind
    rw [hadvance] at hresume ⊢
    obtain ⟨-, skipped, hskip⟩ := resume_spec hresume
    exact ⟨rfl, rfl, rfl, p.lookahead :: skipped,
      by rw [hrest, List.cons_append]; exact congrArg _ hskip⟩

/-- Recovering, if it goes on. -/
theorem sound_recover (h : p.Sound D symbols) {q : Parser} (hq : p.recover tables = .ok q) :
    ∃ drops, q.stack = p.stack.drop drops ∧ q.Sound D (symbols.drop drops) ∧
      q.cost (symbols.drop drops) < p.cost symbols := by
  obtain ⟨r, stack, token, rest, rfl, hresume, ⟨hrep, rfl⟩ | ⟨hrep, hkind, rfl⟩⟩ := recover_ok hq
  · -- a new error: it is put on record, and the token may be kept
    have herrors : (recordError tables p.marked).errors ≠ [] :=
      List.append_ne_nil_of_right_ne_nil _ (List.cons_ne_nil _ _)
    have hsound : Sound D symbols (recordError tables p.marked) :=
      ⟨h.path, h.meant, h.ended, .inl herrors⟩
    obtain ⟨drops, hstack, hsound', hcost⟩ := sound_resume hsound herrors hresume
    refine ⟨drops, hstack, hsound', Nat.lt_of_le_of_lt hcost ?_⟩
    have hmarked : (recordError tables p.marked).penalty = 0 := by
      simp [penalty, repeated, recordError, marked]
    have hbefore : p.penalty = 33 := by rw [penalty, hrep]; rfl
    have hawaited : (recordError tables p.marked).awaited = p.awaited := rfl
    rw [cost, hbefore, hmarked, hawaited]
    omega
  · -- the same error again: the token is dropped
    obtain ⟨next, others, hrest, hended, hadvance⟩ := advance_marked h hkind
    have herrors : p.marked.advance.errors ≠ [] := by
      rw [advance_errors]
      refine h.errors.resolve_right fun hnone => ?_
      rw [repeated, hnone] at hrep
      simp at hrep
    have hsound : Sound D symbols p.marked.advance := by
      rw [hadvance] at herrors ⊢
      exact ⟨h.path, h.meant, hended, .inl herrors⟩
    obtain ⟨drops, hstack, hsound', hcost⟩ := sound_resume hsound herrors hresume
    refine ⟨drops, hadvance ▸ hstack, hsound', Nat.lt_of_le_of_lt hcost ?_⟩
    have hpenalty := p.marked.advance.penalty_le
    have hawaited : p.marked.advance.awaited + 1 = p.awaited := by
      rw [hadvance]
      simp only [awaited, marked, hrest, List.length_cons]
      omega
    rw [cost]
    omega

end Parser

-- ================================================================= the run

/-- What a parse comes to: without a program there is an error, and a
program is a block of which every part is of the sort of its place. -/
structure Parsed.Good (parsed : Parsed) : Prop where
  errors : parsed.program = none → parsed.errors ≠ []
  program : ∀ root, parsed.program = some root → root.isBlock = true ∧ root.Proper .anything

namespace Parser

variable {D : Driver tables} {symbols : List Symbol} {p : Parser}

/-- One step keeps the parser sound and lowers its cost, or is the last and
comes to something good. -/
theorem sound_step (h : p.Sound D symbols) :
    (∃ q symbols', p.step tables = .next q ∧ q.Sound D symbols' ∧
      q.cost symbols' < p.cost symbols) ∨
    ∃ parsed : Parsed, p.step tables = .done parsed ∧ parsed.Good := by
  rcases p.step_cases with ⟨state, haction, hstep⟩ | ⟨index, haction, -⟩ | ⟨haction, -⟩ |
    ⟨-, hcan, hstep⟩ | ⟨-, -, q, ⟨hq, hstep⟩ | ⟨hq, hstep⟩⟩
  · obtain ⟨hsound, hcost⟩ := sound_shift h haction
    exact .inl ⟨_, _, hstep, hsound, hcost⟩
  · obtain ⟨rule, q, hrule, hq, hsound, hcost⟩ := sound_reduce h haction
    refine .inl ⟨q, _, ?_, hsound, hcost⟩
    simp only [Parser.step, haction, hrule, Option.bind_some, hq]
  · obtain ⟨root, hstep, hblock, hproper⟩ := step_accept h.path h.meant haction
    refine .inr ⟨_, hstep, ⟨fun e => (by cases e), fun root' e => ?_⟩⟩
    obtain rfl := Option.some.inj e
    exact ⟨hblock, hproper⟩
  · obtain ⟨hsound, hcost⟩ := sound_supply h hcan
    exact .inl ⟨_, _, hstep, hsound, hcost⟩
  · obtain ⟨drops, -, hsound, hcost⟩ := sound_recover h hq
    exact .inl ⟨q, _, hstep, hsound, hcost⟩
  · exact .inr ⟨_, hstep, fun _ => recover_errors (.inr hq) h.errors, fun _ e => by cases e⟩

/-- A step pushes to the two stacks, replaces what is on top of them, or cuts
them back. -/
theorem restacks_step (h : p.Sound D symbols) {q : Parser} (hq : p.step tables = .next q) :
    Restacks tables p q := by
  rcases p.step_cases with ⟨state, -, hstep⟩ | ⟨index, haction, hstep | ⟨rule, r, hrule, hr, hstep⟩⟩ |
    ⟨-, hstep | ⟨root, hstep⟩⟩ | ⟨-, -, hstep⟩ | ⟨-, -, r, ⟨hr, hstep⟩ | ⟨-, hstep⟩⟩ <;>
    rw [hq] at hstep <;> cases hstep
  · exact restacks_shift p state
  · have hbody := congrArg List.length (h.path.finished haction hrule).1
    rw [List.length_take, List.length_reverse, ← h.meant.length_eq] at hbody
    exact restacks_reduce (hbody ▸ Nat.min_le_right _ _) hr
  · exact restacks_drop (show p.supplySemicolon.stack = p.stack.drop 0 from rfl)
  · obtain ⟨drops, hstack, -⟩ := sound_recover h hr
    exact restacks_drop hstack

/-- A sound parser stays so. -/
theorem Steps.sound {count : Nat} {q : Parser} (hs : p.Steps tables count q)
    (h : p.Sound D symbols) : ∃ symbols', q.Sound D symbols' := by
  induction hs generalizing symbols with
  | refl p => exact ⟨symbols, h⟩
  | step hstep _ ih =>
      rcases sound_step h with ⟨q', symbols', hnext, hsound, -⟩ | ⟨parsed, hdone, -⟩
      · rw [hstep] at hnext
        cases hnext
        exact ih hsound
      · rw [hstep] at hdone
        cases hdone

/-- Within its cost a sound parser comes to something good. -/
theorem sound_run (h : p.Sound D symbols) {fuel : Nat} (hfuel : p.cost symbols < fuel) :
    ∃ parsed : Parsed, p.run tables fuel = some parsed ∧ parsed.Good := by
  induction fuel generalizing p symbols with
  | zero => exact absurd hfuel (Nat.not_lt_zero _)
  | succ fuel ih =>
      rw [Parser.run]
      rcases sound_step h with ⟨q, symbols', hstep, hsound, hcost⟩ | ⟨parsed, hstep, hgood⟩
      · rw [hstep]
        exact ih hsound (by omega)
      · rw [hstep]
        exact ⟨parsed, rfl, hgood⟩

/-- Every parser begins sound. -/
theorem sound_start (options : ParseOptions) (source : Source) {tokens : List Token}
    (h : Ended tokens) : (start options source tokens).Sound D [] := by
  refine ⟨.nil, .nil, ?_, .inr rfl⟩
  cases tokens with
  | nil =>
      obtain ⟨last, hlast, -⟩ := h
      cases hlast
  | cons token rest => exact h

theorem cost_start (options : ParseOptions) (source : Source) (tokens : List Token) :
    (start options source tokens).cost [] < parseFuel tokens.length := by
  have hpenalty := (start options source tokens).penalty_le
  have hawaited : (start options source tokens).awaited ≤ tokens.length + 2 := by
    simp only [awaited, start, List.length_tail, Bool.false_eq_true, if_false]
    omega
  have hlevel : level [] = 32 := rfl
  rw [cost, hlevel, List.length_nil, parseFuel]
  omega

end Parser

end

/-- Whatever is scanned ends with the end of input. -/
theorem ended_scanFrom (cursor : Cursor) (text : List Char) :
    Ended (Token.scanFrom cursor text) := by
  fun_induction Token.scanFrom cursor text with
  | case1 cursor => exact ⟨_, rfl, rfl⟩
  | case2 cursor c rest lexeme next tokens hblank ih => exact ih
  | case3 cursor c rest lexeme next tokens hblank ih =>
      obtain ⟨last, hlast, hkind⟩ := ih
      refine ⟨last, ?_, hkind⟩
      rw [List.getLast?_cons, hlast]
      rfl

theorem ended_scan (text : String) : Ended (Token.scan text) := by
  rw [Token.scan_eq]
  exact ended_scanFrom _ _

/-- Within its fuel the parser comes to something good. -/
theorem run_good (options : ParseOptions) (source : Source) :
    (Parser.start options source (Token.scan source.text)).run tables
      (parseFuel (Token.scan source.text).length) = some (parse options source) ∧
    (parse options source).Good := by
  have hstart := Parser.sound_start (D := driver) options source
    (ended_scan source.text)
  obtain ⟨parsed, hrun, hgood⟩ := Parser.sound_run hstart
    (Parser.cost_start options source (Token.scan source.text))
  have hparse : parse options source = parsed := by
    unfold parse parseTokens
    rw [show (Parser.start options source (Token.scan source.text)).run tables
      (parseFuel (Token.scan source.text).length) = some parsed from hrun]
    rfl
  exact ⟨hparse ▸ hrun, hparse ▸ hgood⟩

theorem parse_good (options : ParseOptions) (source : Source) : (parse options source).Good :=
  (run_good options source).2

/-- The parser never gets stuck. Whatever the text, at every step the
symbols on the stack lead from state to state, each with a meaning of its
sort; there is one state more than there are values, and a step pushes to
both, replaces what is there on top of both, or cuts both back; a rule that is
used finds a meaning of its sort on top of the stack for each symbol of its
body, so the stack never runs short; and the step is not one that fails. The
parse ends within its fuel, with an error if not with a program, and with
every part of a program of the sort of its place. -/
theorem parse_never_stuck (options : ParseOptions) (source : Source) :
    (∀ count p, (Parser.start options source (Token.scan source.text)).Steps tables count p →
      (∃ symbols, Path driver p.stack symbols ∧ Meant p.stack symbols) ∧
        p.states.length = p.values.length + 1 ∧
        (∀ q, p.step tables = .next q → Parser.Restacks tables p q) ∧
        (∀ index rule, tables.action p.state p.lookahead.kind = some (.reduce index) →
          rules[index]? = some rule →
          List.Forall₂ (fun symbol m => m.Sorted .anything symbol.sort) rule.production.body
            ((p.stack.take rule.production.body.length).reverse.map (·.meaning))) ∧
        p.step tables ≠ .stuck) ∧
    (Parser.start options source (Token.scan source.text)).run tables
      (parseFuel (Token.scan source.text).length) = some (parse options source) ∧
    (parse options source).Good := by
  have hstart := Parser.sound_start (D := driver) options source
    (ended_scan source.text)
  refine ⟨fun count p hsteps => ?_, run_good options source⟩
  obtain ⟨symbols, hsound⟩ := hsteps.sound hstart
  refine ⟨⟨symbols, hsound.path, hsound.meant⟩, length_statesOf p.stack,
    fun q => Parser.restacks_step hsound, fun index rule haction hrule => ?_, fun hstuck => ?_⟩
  · exact sorted_parts hsound.meant (hsound.path.finished haction hrule).1
  · rcases Parser.sound_step hsound with ⟨q, symbols', hstep, -⟩ | ⟨parsed, hstep, -⟩
    · rw [hstuck] at hstep
      cases hstep
    · rw [hstuck] at hstep
      cases hstep

/-- A condition that is not closed: the parser is never stuck on it, and ends. -/
theorem parse_never_stuck_unclosed :
    let source := Source.ofText "if (;"
    (Token.scan source.text).map (·.kind) = [.ifWord, .leftParen, .semicolon, .endOfInput] ∧
      (∀ count p, (Parser.start {} source (Token.scan source.text)).Steps tables count p →
        p.states.length = p.values.length + 1 ∧ p.step tables ≠ .stuck) ∧
      (Parser.start {} source (Token.scan source.text)).run tables 6000 = some (parse {} source) := by
  intro source
  have hkinds : (Token.scan source.text).map (·.kind)
      = [.ifWord, .leftParen, .semicolon, .endOfInput] := by
    decide +kernel
  obtain ⟨hsteps, hrun, -⟩ := parse_never_stuck {} source
  have hlength : (Token.scan source.text).length = 4 := by
    rw [← List.length_map, hkinds]
    rfl
  rw [hlength] at hrun
  exact ⟨hkinds, fun count p hp => ⟨(hsteps count p hp).2.1, (hsteps count p hp).2.2.2.2⟩, hrun⟩

end BoardScript
