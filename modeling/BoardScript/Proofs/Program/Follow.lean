/-
The parser follows a derivation. Take a state that has an item with a
symbol behind its dot, and a phrase of that symbol in front of a token that
may follow it there. Reading the phrase, the parser takes exactly one step
for each of its tokens and rules, and ends with the phrase's meaning on the
stack and the token in front of it (`Phrase.parse`). It needs every `else`
of the phrase to belong to the nearest `if`, and none to come behind that
would: the tables read an `else` before they finish an `if`.

So a program with a derivation of that kind is parsed to what the rules
build along the derivation (`parseTokens_phrase`).
-/
import BoardScript.Proofs.Program.Builds
import BoardScript.Proofs.Program.Driver

namespace BoardScript

open Grammar Lalr

namespace Parser

variable {tables : Tables}

/-- Some number of steps, none of them the last. -/
inductive Steps (tables : Tables) : Nat → Parser → Parser → Prop
  | refl (p : Parser) : Steps tables 0 p p
  | step {count : Nat} {p q r : Parser} (h : p.step tables = .next q)
      (hs : Steps tables count q r) : Steps tables (count + 1) p r

theorem Steps.trans {m n : Nat} {p q r : Parser} (h : Steps tables m p q)
    (k : Steps tables n q r) : Steps tables (m + n) p r := by
  induction h with
  | refl p => rwa [Nat.zero_add]
  | step h _ ih =>
      rw [Nat.add_right_comm]
      exact .step h (ih k)

/-- Steps use up fuel, and that is all. -/
theorem Steps.run {count : Nat} {p q : Parser} (h : Steps tables count p q) (fuel : Nat) :
    p.run tables (count + fuel) = q.run tables fuel := by
  induction h with
  | refl p => rw [Nat.zero_add]
  | step h _ ih =>
      rw [Nat.add_right_comm, Parser.run, h]
      exact ih

variable (D : Driver tables)

-- ============================================================ single steps

/-- Reading the token at hand. -/
theorem step_shift {p : Parser} (hs : D.state p.state) {target : StateId}
    (ht : D.target p.state (.terminal p.lookahead.kind) = some target) {token : Token}
    {rest : List Token} (hrest : p.rest = token :: rest) (hshifted : p.shifted = true) :
    p.step tables = .next { p with
      stack := ⟨target, .token p.lookahead, some p.lookahead.span⟩ :: p.stack
      lookahead := token
      rest := rest } := by
  unfold Parser.step
  rw [D.shift hs ht]
  simp only [Parser.shift, Parser.advance, hrest, hshifted]

/-- Replacing the body of a rule, on top of the stack, by its head. -/
theorem step_reduce {p : Parser} (hs : D.state p.state) {index : Nat} {rule : Rule}
    (hrule : rules[index]? = some rule) (hindex : index ≠ 0) {following : KindSet}
    (hmem : D.items p.state ⟨index, rule.production.body.length⟩ following)
    (hkind : following.contains p.lookahead.kind = true)
    (helse : index = ifRule → p.lookahead.kind ≠ .elseWord) {entries stack : List StackEntry}
    (hstack : p.stack = entries ++ stack) (hlen : entries.length = rule.production.body.length)
    {m : Meaning}
    (hbuild : rule.build ((Span.coverAll (entries.reverse.filterMap (·.span))).getD
      (.before p.lookahead.span.start)) (entries.reverse.map (·.meaning)) = some m)
    (hbelow : D.state (stateOf stack)) {target : StateId}
    (ht : D.target (stateOf stack) (.nonTerminal rule.production.head) = some target) :
    p.step tables = .next { p with
      stack := ⟨target, m, Span.coverAll (entries.reverse.filterMap (·.span))⟩ :: stack } := by
  have hend : tabulated.remaining ⟨index, rule.production.body.length⟩ = [] := by
    rw [remaining_eq (tabulated_production hrule)]
    exact List.drop_length
  have haction : tables.action p.state p.lookahead.kind = some (.reduce index) := by
    rw [D.finish hs hmem hend hkind helse, finish, if_neg hindex]
  have hgoto : tables.goto (stateOf stack) rule.production.head = some target := by
    rw [D.goto _ hbelow, ht]
  have htake : p.stack.take rule.production.body.length = entries := by
    rw [hstack, ← hlen, List.take_left]
  have hdrop : p.stack.drop rule.production.body.length = stack := by
    rw [hstack, ← hlen, List.drop_left]
  unfold Parser.step
  rw [haction]
  simp only [hrule, Option.bind_some, Parser.reduce, htake, hdrop, hbuild, hgoto,
    Option.bind_eq_bind, Option.pure_def]

end Parser

-- ================================================================ phrases

/-- What comes behind a phrase in its rule may follow it there. -/
theorem follows_contains {symbols : List Symbol} {others : List Token}
    (ho : (tabulated.starts.ofSequence symbols).Admits others) {following : KindSet}
    {after : Token} (hf : following.contains after.kind = true) {more : List Token}
    {token : Token} {tokens : List Token} (h : others ++ after :: more = token :: tokens) :
    (tabulated.follows symbols following).contains token.kind = true := by
  unfold Tabulated.follows
  cases others with
  | nil =>
      obtain ⟨rfl, -⟩ := List.cons.inj h
      have hnull : (tabulated.starts.ofSequence symbols).nullable = true := ho
      rw [if_pos hnull]
      exact KindSet.within_union_right _ _ _ hf
  | cons first _ =>
      obtain ⟨rfl, -⟩ := List.cons.inj h
      have hin : (tabulated.starts.ofSequence symbols).first.contains first.kind = true := ho
      split
      · exact KindSet.within_union_left _ _ _ hin
      · exact hin

theorem startOf_append {others : List Token} {after token : Token} {more tokens : List Token}
    (h : others ++ after :: more = token :: tokens) :
    startOf after.span.start others = token.span.start := by
  cases others with
  | nil => rw [(List.cons.inj h).1]; rfl
  | cons first _ => rw [← (List.cons.inj h).1]; rfl

/-- An `else` behind a part of a rule does not belong into the part: it
comes from the rule of an `if` with an `else`, or from behind the rule. -/
theorem closed_part {index : Nat} {rule : Rule} (hrule : rules[index]? = some rule) {dot : Nat}
    {symbol : Symbol} {symbols : List Symbol}
    (hdrop : rule.production.body.drop dot = symbol :: symbols) (first : Phrase symbol)
    (others : Phrases symbols)
    (hopen : index = ifElseRule → dot ≤ 4 → (Phrases.cons first others).openAt (4 - dot) = false)
    {after : Token}
    (hafter : after.kind = .elseWord → (Phrases.cons first others).endsOpen = false)
    {more : List Token} {token : Token} {tokens : List Token}
    (h : others.tokens ++ after :: more = token :: tokens) :
    token.kind = .elseWord → first.endsOpen = false := by
  intro hkind
  cases first with
  | token _ => rfl
  | node i hr parts =>
      cases others with
      | nil =>
          obtain ⟨rfl, -⟩ := List.cons.inj h
          exact hafter hkind
      | cons second others =>
          obtain ⟨t, ts, ht, helse⟩ :=
            behind hrule hdrop (List.cons_ne_nil _ _) (.cons second others)
          rw [ht, List.cons_append] at h
          obtain ⟨rfl, rfl⟩ := helse ((List.cons.inj h).1 ▸ hkind)
          exact hopen rfl (Nat.le_refl 4)

/-- The parser with other symbols on its stack and other tokens ahead. -/
def Parser.moved (p : Parser) (stack : List StackEntry) (lookahead : Token) (rest : List Token) :
    Parser :=
  { p with stack, lookahead, rest }

mutual

/-- Reading a phrase where its symbol stands behind a dot. -/
theorem Phrase.parse {tables : Tables} (D : Driver tables) {symbol : Symbol} :
    (d : Phrase symbol) → ∀ (p : Parser) (item : Item) (following : KindSet) (rest : List Symbol)
      (after : Token) (more : List Token), D.state p.state → D.items p.state item following →
      tabulated.remaining item = symbol :: rest → p.shifted = true →
      p.lookahead :: p.rest = d.tokens ++ after :: more →
      (tabulated.follows rest following).contains after.kind = true → d.Nearest →
      (after.kind = .elseWord → d.endsOpen = false) →
      ∃ target m, D.target p.state symbol = some target ∧
        d.meaning after.span.start = some m ∧
        p.Steps tables d.steps (p.moved (⟨target, m, d.span⟩ :: p.stack) after more)
  | .token token => by
      intro p item following rest after more hs hmem hrem hshifted hahead _ _ _
      obtain ⟨target, -, ht, -⟩ := D.advance hs hmem hrem
      obtain ⟨hlook, hrest⟩ := List.cons.inj hahead
      refine ⟨target, .token token, ht, rfl, .step ?_ (.refl _)⟩
      rw [← hlook] at ht ⊢
      exact Parser.step_shift D hs ht hrest hshifted
  | @Phrase.node index rule hrule parts => by
      intro p item following rest after more hs hmem hrem hshifted hahead hfollow hnear helse
      have hindex : index ≠ 0 := by
        rintro rfl
        obtain rfl := Option.some.inj hrule
        exact (augmented.ne_of_remaining hrem).1 rfl
      -- the rule is brought in, and its parts are read from its start
      obtain ⟨known, hknown, hle⟩ := D.predict hmem hrem hrule rfl
      have hbody : tabulated.remaining ⟨index, 0⟩ = rule.production.body :=
        remaining_eq (tabulated_production hrule) 0
      obtain ⟨entries, known', hlen, hmeanings, hspans, hstate, hend, hle', hsteps⟩ :=
        parts.parse D p index 0 rule known after more hs hknown hrule hbody hshifted hahead (hle _ hfollow) hnear.2
          (fun e _ => hnear.1 e) (fun e => (Bool.or_eq_false_iff.1 (helse e)).2)
      obtain ⟨target, -, ht, -⟩ := D.advance hs hmem hrem
      obtain ⟨m, hm⟩ := (Phrase.node index hrule parts).exists_meaning after.span.start
      refine ⟨target, m, ht, hm, hsteps.trans (.step ?_ (.refl _))⟩
      rw [Phrase.meaning, hmeanings, Option.bind_some, ← hspans] at hm
      rw [Phrase.span, ← hspans]
      rw [Nat.zero_add] at hend
      refine Parser.step_reduce (p := p.moved (entries ++ p.stack) after more) D hstate hrule hindex
        hend (hle' _ (hle _ hfollow)) (fun e h => ?_) rfl hlen hm hs ht
      have hclosed := helse h
      rw [Phrase.endsOpen, e] at hclosed
      cases hclosed

/-- Reading the phrases that are left of a rule. -/
theorem Phrases.parse {tables : Tables} (D : Driver tables) {symbols : List Symbol} :
    (ds : Phrases symbols) → ∀ (p : Parser) (index dot : Nat) (rule : Rule) (following : KindSet)
      (after : Token) (more : List Token), D.state p.state →
      D.items p.state ⟨index, dot⟩ following → rules[index]? = some rule →
      tabulated.remaining ⟨index, dot⟩ = symbols → p.shifted = true →
      p.lookahead :: p.rest = ds.tokens ++ after :: more →
      following.contains after.kind = true → ds.Nearest →
      (index = ifElseRule → dot ≤ 4 → ds.openAt (4 - dot) = false) →
      (after.kind = .elseWord → ds.endsOpen = false) →
      ∃ entries known, entries.length = symbols.length ∧
        ds.meanings after.span.start = some (entries.reverse.map (·.meaning)) ∧
        entries.reverse.filterMap (·.span) = ds.spans ∧
        D.state (Parser.stateOf (entries ++ p.stack)) ∧
        D.items (Parser.stateOf (entries ++ p.stack)) ⟨index, dot + symbols.length⟩ known ∧
        following.Within known ∧
        p.Steps tables ds.steps (p.moved (entries ++ p.stack) after more)
  | .nil => by
      intro p index dot rule following after more hs hmem _ _ _ hahead _ _ _ _
      obtain ⟨hlook, hrest⟩ := List.cons.inj hahead
      refine ⟨[], following, rfl, rfl, rfl, hs, hmem, .refl _, ?_⟩
      rw [← hlook, ← hrest]
      exact .refl p
  | @Phrases.cons symbol symbols first others => by
      intro p index dot rule following after more hs hmem hrule hrem hshifted hahead hkind hnear
        hopen helse
      have hdrop : rule.production.body.drop dot = symbol :: symbols := by
        rw [← hrem, remaining_eq (tabulated_production hrule)]
      -- the token behind the first phrase is that of the others, or the one behind all
      obtain ⟨token, tokens, htokens⟩ :
          ∃ token tokens, others.tokens ++ after :: more = token :: tokens := by
        cases others.tokens with
        | nil => exact ⟨_, _, rfl⟩
        | cons t ts => exact ⟨_, _, rfl⟩
      rw [Phrases.tokens, List.append_assoc, htokens] at hahead
      obtain ⟨target, m, ht, hm, hsteps⟩ := first.parse D p _ _ _ _ _ hs hmem hrem hshifted hahead
        (follows_contains others.admits hkind htokens) hnear.1
        (closed_part hrule hdrop first others hopen helse htokens)
      obtain ⟨target', known, ht', hnext, hle⟩ := D.advance hs hmem hrem
      obtain rfl : target = target' := Option.some.inj (ht.symm.trans ht')
      have hlast : after.kind = .elseWord → others.endsOpen = false := by
        intro e
        cases others with
        | nil => rfl
        | cons second others => exact helse e
      obtain ⟨entries, known', hlen, hmeanings, hspans, hstate, hend, hle', hsteps'⟩ :=
        others.parse D (p.moved (⟨target, m, first.span⟩ :: p.stack) token tokens) index (dot + 1)
          rule known after more (D.moved hs ht).1 hnext hrule (remaining_next hrem) hshifted
          htokens.symm (hle _ hkind) hnear.2
          (fun e hdot => by
            have := hopen e (Nat.le_of_succ_le hdot)
            rwa [show 4 - dot = (4 - (dot + 1)) + 1 by omega] at this)
          hlast
      have hstack : (entries ++ [⟨target, m, first.span⟩]) ++ p.stack
          = entries ++ (⟨target, m, first.span⟩ :: p.stack) := by
        rw [List.append_assoc]
        rfl
      refine ⟨entries ++ [⟨target, m, first.span⟩], known', by simp [hlen], ?_, ?_, ?_, ?_,
        hle.trans hle', ?_⟩
      · rw [Phrases.meanings, startOf_append htokens, hm, Option.bind_some, hmeanings]
        simp
      · rw [Phrases.spans, ← hspans]
        cases first.span <;> simp
      · rw [hstack]; exact hstate
      · rw [hstack, List.length_cons, Nat.add_comm symbols.length 1, ← Nat.add_assoc]
        exact hend
      · rw [hstack]
        exact hsteps.trans hsteps'

end

-- =============================================================== programs

/-- Reading a whole program: the parser ends with what the rules build
along its derivation, and no error. -/
theorem Parser.run_phrase {tables : Tables} (D : Driver tables)
    (d : Phrase (.nonTerminal .program)) (hnear : d.Nearest) {p : Parser} (hstack : p.stack = [])
    (hshifted : p.shifted = true) {after : Token} {more : List Token}
    (hahead : p.lookahead :: p.rest = d.tokens ++ after :: more)
    (hend : after.kind = .endOfInput) (fuel : Nat) :
    ∃ root, d.meaning after.span.start = some (.node root) ∧
      p.run tables (d.steps + (fuel + 1)) = some ⟨some root, p.errors⟩ := by
  obtain ⟨hstart, following, hitem, hfollow⟩ := D.start
  have hrem : tabulated.remaining ⟨0, 0⟩ = [.nonTerminal .program] := rfl
  have hzero : p.state = 0 := by
    rw [Parser.state, hstack]
    rfl
  have hs : D.state p.state := by rw [hzero]; exact hstart
  have hmem : D.items p.state ⟨0, 0⟩ following := by rw [hzero]; exact hitem
  have hafter : (tabulated.follows [] following).contains after.kind = true := by
    rw [hend]
    exact KindSet.within_union_right _ _ _ hfollow
  obtain ⟨target, m, ht, hm, hsteps⟩ := d.parse D p _ _ _ _ _ hs hmem hrem hshifted hahead hafter
    hnear (fun e => absurd (hend.symm.trans e) (by decide))
  -- what is on the stack is a program
  have hroot : ∃ root, m = .node root := by
    have hlex : ∀ token ∈ d.tokens, Lexicon.anything token.kind token.lexeme := fun _ _ => trivial
    obtain ⟨m', hm', hsorted⟩ := d.sorted after.span.start hlex
    obtain rfl := Option.some.inj (hm.symm.trans hm')
    cases hsorted
    exact ⟨_, rfl⟩
  obtain ⟨root, rfl⟩ := hroot
  refine ⟨root, hm, ?_⟩
  -- and the start rule is read to its end
  obtain ⟨target', known, ht', hnext, hle⟩ := D.advance hs hmem hrem
  obtain rfl := Option.some.inj (ht.symm.trans ht')
  have haccept : tables.action target after.kind = some .accept :=
    D.finish (D.moved hs ht).1 hnext rfl (hle _ (hend ▸ hfollow)) (fun e => by cases e)
  rw [hsteps.run, Parser.run, Parser.step]
  simp only [Parser.moved, Parser.state, Parser.stateOf, haccept]

/-- A program is parsed to what the rules build along any derivation of it
in which every `else` belongs to the nearest `if`. -/
theorem parseTokens_phrase (options : ParseOptions) (source : Source)
    (d : Phrase (.nonTerminal .program)) (hnear : d.Nearest) {after : Token} (more : List Token)
    (hend : after.kind = .endOfInput) :
    ∃ root, d.meaning after.span.start = some (.node root) ∧
      parseTokens options source (d.tokens ++ after :: more) = ⟨some root, []⟩ := by
  have hahead : (Parser.start options source (d.tokens ++ after :: more)).lookahead ::
      (Parser.start options source (d.tokens ++ after :: more)).rest
      = d.tokens ++ after :: more := by
    cases d.tokens <;> rfl
  have hfuel : ∃ fuel, parseFuel (d.tokens ++ after :: more).length = d.steps + (fuel + 1) := by
    have := d.steps_le
    simp only [Symbol.weight] at this
    refine ⟨parseFuel (d.tokens ++ after :: more).length - d.steps - 1, ?_⟩
    rw [parseFuel, List.length_append, List.length_cons]
    omega
  obtain ⟨fuel, hfuel⟩ := hfuel
  obtain ⟨root, hm, hrun⟩ := Parser.run_phrase driver d hnear rfl rfl hahead hend fuel
  refine ⟨root, hm, ?_⟩
  rw [parseTokens, hfuel, hrun]
  rfl

end BoardScript
