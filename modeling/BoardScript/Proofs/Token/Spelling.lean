/-
Scanning text that was put together from words. A word is the kind and the
text of a token, without its place; the words of a text do not depend on
where it stands (`Token.words_scanFrom`).

A text that the automaton reads to an accepting state is one word if it
cannot be read any further than that in what comes behind it
(`spell_token`). Whether it can is decided by the first character or two:
in front of a blank, a bracket, a comma, or a dot with a name behind it
every name, numeral or string has ended (`Parted`). Blanks are no words
(`spell_space`).
-/
import BoardScript.Proofs.Token.Reading
import BoardScript.Token.Literal

namespace BoardScript

-- ================================================================ readings

namespace Reading

/-- Where a text leads from a state. -/
def after (reading : Reading) : List Char → Option Reading
  | [] => some reading
  | c :: rest => (reading.step c).bind (·.after rest)

theorem after_append {reading next : Reading} {a b : List Char} (h : reading.after a = some next) :
    reading.after (a ++ b) = next.after b := by
  induction a generalizing reading with
  | nil =>
      cases h
      rfl
  | cons c a ih =>
      obtain ⟨middle, hstep, hrest⟩ := Option.bind_eq_some_iff.1 h
      rw [List.cons_append, after, hstep]
      exact ih hrest

/-- No longer token is found in a text. -/
def Stalls (reading : Reading) (text : List Char) : Prop :=
  ∀ taken best, reading.longest taken best text = best

/-- Reading on to an accepting state. -/
theorem longest_after {reading last : Reading} {kind : TokenKind} {text : List Char}
    (h : reading.after text = some last) (hne : text ≠ []) (hlast : last.accepts = some kind)
    (taken : Nat) (best : Option (TokenKind × Nat)) (rest : List Char) :
    reading.longest taken best (text ++ rest)
      = last.longest (taken + text.length) (some (kind, taken + text.length)) rest := by
  induction text generalizing reading taken best with
  | nil => exact absurd rfl hne
  | cons c text ih =>
      obtain ⟨next, hstep, hrest⟩ := Option.bind_eq_some_iff.1 h
      rw [List.cons_append, longest, hstep]
      cases text with
      | nil =>
          cases hrest
          simp [hlast]
      | cons d text =>
          simp only
          have hlength : taken + 1 + (d :: text).length = taken + (c :: d :: text).length := by
            rw [@List.length_cons _ c]
            omega
          rw [ih hrest (List.cons_ne_nil _ _), hlength]

/-- The kind that a text has whose reading ends in a state. -/
def kindOf (reading : Reading) (text : List Char) : Option TokenKind :=
  reading.accepts.map fun kind =>
    if kind = .identifier then .ofWord (String.ofList text) else kind

end Reading

/-- A text that is read to a token of a kind. -/
def Lexical (kind : TokenKind) (text : String) : Prop :=
  ∃ reading, text.toList ≠ [] ∧ Reading.start.after text.toList = some reading ∧
    reading.kindOf text.toList = some kind

namespace Lexeme

/-- The first cut, where a text is read to an accepting state and no
further. -/
theorem next_append {reading : Reading} {c : Char} {others rest : List Char} {kind : TokenKind}
    (h : Reading.start.after (c :: others) = some reading)
    (hkind : reading.kindOf (c :: others) = some kind) (hstall : reading.Stalls rest) :
    next c (others ++ rest) = ⟨kind, c, others⟩ := by
  obtain ⟨accepted, haccepts, rfl⟩ := Option.map_eq_some_iff.1 hkind
  have hlongest : Reading.start.longest 0 none (c :: (others ++ rest))
      = some (accepted, others.length + 1) := by
    rw [← List.cons_append, Reading.longest_after h (List.cons_ne_nil _ _) haccepts, hstall]
    simp
  simp only [next, hlongest, Nat.add_sub_cancel, List.take_left]

end Lexeme

-- =================================================================== words

/-- The kind and the text of a token. -/
abbrev Word := TokenKind × String

namespace Token

/-- A token without its place. -/
def word (token : Token) : Word := (token.kind, token.lexeme)

/-- The same word at another place. -/
def moved (move : Span → Span) (place : Position → Position) (token : Token) : Token :=
  ⟨token.kind, token.lexeme, move token.span, place token.position⟩

/-- The words of a text do not depend on where it stands. -/
theorem words_scanFrom (cursor cursor' : Cursor) (text : List Char) :
    (scanFrom cursor text).map word = (scanFrom cursor' text).map word := by
  fun_induction scanFrom cursor text generalizing cursor' with
  | case1 cursor =>
      rw [scanFrom]
      rfl
  | case2 cursor c rest lexeme next tokens hblank ih =>
      rw [scanFrom, if_pos hblank]
      exact ih _
  | case3 cursor c rest lexeme next tokens hblank ih =>
      rw [scanFrom, if_neg hblank, List.map_cons, List.map_cons]
      exact congrArg _ (ih _)

end Token

/-- The words of a text, and the end of input. -/
def spell (text : List Char) : List Word := (Token.scanFrom .start text).map Token.word

theorem spell_nil : spell [] = [(.endOfInput, "")] := by
  rw [spell, Token.scanFrom]
  rfl

theorem spell_cons (c : Char) (rest : List Char) :
    spell (c :: rest) =
      if (Lexeme.next c rest).kind = .whitespace then
        spell (rest.drop (Lexeme.next c rest).others.length)
      else ((Lexeme.next c rest).kind, (Lexeme.next c rest).text) ::
        spell (rest.drop (Lexeme.next c rest).others.length) := by
  rw [spell, Token.scanFrom]
  split
  · exact Token.words_scanFrom _ _ _
  · rw [List.map_cons]
    exact congrArg _ (Token.words_scanFrom _ _ _)

/-- A text that is read to a token and cannot be read any further is one
word. -/
theorem spell_token {reading : Reading} {text rest : List Char} {kind : TokenKind}
    (hne : text ≠ []) (h : Reading.start.after text = some reading)
    (hkind : reading.kindOf text = some kind) (hblank : kind ≠ .whitespace)
    (hstall : reading.Stalls rest) :
    spell (text ++ rest) = (kind, String.ofList text) :: spell rest := by
  cases text with
  | nil => exact absurd rfl hne
  | cons c others =>
      rw [List.cons_append, spell_cons, Lexeme.next_append h hkind hstall]
      simp only [if_neg hblank, List.drop_left]
      rfl

-- ================================================================== blanks

namespace Reading

section

variable {reading : Reading} {p : Char → Bool}
  (hstep : ∀ c, reading.step c = if p c then some reading else none)

include hstep

/-- A state that is stayed in on some characters. -/
theorem after_run {text : List Char} (h : ∀ c ∈ text, p c = true) : reading.after text = some reading := by
  induction text with
  | nil => rfl
  | cons c text ih =>
      rw [after, hstep, if_pos (h c List.mem_cons_self)]
      exact ih fun d hd => h d (List.mem_cons_of_mem _ hd)

theorem stalls_dropWhile (rest : List Char) : reading.Stalls (rest.dropWhile p) := by
  intro taken best
  cases hrest : rest.dropWhile p with
  | nil => rfl
  | cons d more =>
      have hd : p d = false := by
        have hhead := List.head?_dropWhile_not p rest
        rw [hrest] at hhead
        simpa using hhead
      rw [longest, hstep, if_neg (by rw [hd]; exact Bool.false_ne_true)]

end

end Reading

/-- A run of blanks is cut off at once. -/
theorem Lexeme.next_blanks {c : Char} (hc : isSpace c = true) (rest : List Char) :
    next c rest = ⟨.whitespace, c, rest.takeWhile isSpace⟩ := by
  have hread : Reading.start.after (c :: rest.takeWhile isSpace) = some .whitespace := by
    rw [Reading.after, Reading.step, if_pos hc]
    exact Reading.after_run (fun _ => rfl) (List.all_eq_true.1 List.all_takeWhile)
  have hkind : Reading.whitespace.kindOf (c :: rest.takeWhile isSpace) = some .whitespace := rfl
  have hnext := Lexeme.next_append hread hkind (Reading.stalls_dropWhile (fun _ => rfl) rest)
  rwa [List.takeWhile_append_dropWhile] at hnext

theorem Token.scanFrom_blanks {c : Char} (hc : isSpace c = true) (cursor : Cursor)
    (rest : List Char) :
    scanFrom cursor (c :: rest)
      = scanFrom ((cursor.advance c).advanceAll (rest.takeWhile isSpace))
        (rest.dropWhile isSpace) := by
  have hsplit : rest.drop (rest.takeWhile isSpace).length = rest.dropWhile isSpace := by
    have hwhole := @List.takeWhile_append_dropWhile _ isSpace rest
    rw [← @List.drop_left _ (rest.takeWhile isSpace) (rest.dropWhile isSpace), hwhole]
  rw [scanFrom]
  simp only [Lexeme.next_blanks hc, if_true, hsplit]
  rfl

/-- A blank is passed over. -/
theorem Token.scanFrom_space {c : Char} (hc : isSpace c = true) (cursor : Cursor)
    (rest : List Char) : scanFrom cursor (c :: rest) = scanFrom (cursor.advance c) rest := by
  rw [scanFrom_blanks hc]
  cases rest with
  | nil => rfl
  | cons d rest =>
      cases hd : isSpace d with
      | false => simp [hd, Cursor.advanceAll]
      | true =>
          rw [scanFrom_blanks hd, List.dropWhile_cons, if_pos hd, List.takeWhile_cons, if_pos hd]
          rfl

/-- A blank is no word. -/
theorem spell_space {c : Char} (hc : isSpace c = true) (rest : List Char) :
    spell (c :: rest) = spell rest := by
  rw [spell, Token.scanFrom_space hc]
  exact Token.words_scanFrom _ _ _

-- ============================================================ ends of words

/-- Characters that no word but a blank, a dot or an operator goes on
with. -/
def parting : Char → Bool
  | ' ' | '\n' | '(' | ')' | '[' | ']' | ',' | ';' | ':' => true
  | _ => false

/-- A text in front of which every word has ended: it begins with a parting
character, or with a dot and a name. -/
def Parted (text : List Char) : Prop :=
  text = [] ∨ (∃ c rest, text = c :: rest ∧ parting c = true) ∨
    ∃ c rest, text = '.' :: c :: rest ∧ isWordStart c = true

@[simp] theorem parted_nil : Parted [] := .inl rfl

@[simp] theorem parted_cons {c : Char} (h : parting c = true) (rest : List Char) :
    Parted (c :: rest) :=
  .inr (.inl ⟨c, rest, rfl, h⟩)

theorem parted_dot {c : Char} (h : isWordStart c = true) (rest : List Char) :
    Parted ('.' :: c :: rest) :=
  .inr (.inr ⟨c, rest, rfl, h⟩)

theorem Reading.stalls_of_step {reading : Reading} {c : Char} (h : reading.step c = none)
    (rest : List Char) : reading.Stalls (c :: rest) := by
  intro taken best
  rw [longest, h]

/-- Nothing is moved to on a parting character but by blanks. -/
theorem Reading.step_parting {reading : Reading} (hblank : reading ≠ .whitespace)
    (haccepts : reading.accepts.isSome = true) {c : Char} (hc : parting c = true) :
    reading.step c = none := by
  unfold parting at hc
  split at hc
  any_goals cases hc
  all_goals
    cases reading with
    | opening first => simp [step, operatorOfPair]
    | whitespace => exact absurd rfl hblank
    | start | integerDot | exponentMark | exponentSign | stringBody | stringEscape =>
        cases haccepts
    | _ => rfl

/-- A name does not begin with a digit. -/
theorem isDigit_of_isWordStart {c : Char} (h : isWordStart c = true) : c.isDigit = false := by
  simp only [isWordStart, isAlpha_eq, Bool.or_eq_true, Bool.and_eq_true, decide_eq_true_eq] at h
  simp only [Char.isDigit, Bool.and_eq_false_iff, decide_eq_false_iff_not, ge_iff_le,
    UInt32.le_iff_toNat_le] at h ⊢
  have hdigit : '9'.val.toNat = 57 := rfl
  have hupper : 'A'.val.toNat = 65 := rfl
  have hlower : 'a'.val.toNat = 97 := rfl
  rcases h with ((h | h) | rfl) | rfl
  · omega
  · omega
  · decide
  · decide

namespace Reading

/-- The first characters that lead to a state. -/
def BegunBy : Reading → Char → Prop
  | whitespace, c => isSpace c = true
  | word, c => isWordStart c = true
  | integer, c => c.isDigit = true
  | leadingDot, c => c = '.'
  | stringBody, c => c = '\x27'
  | opening first, c => first = c ∧ beginsPair c = true
  | operator kind, c => beginsPair c = false ∧ operatorOf c = some kind
  | _, _ => False

/-- Names and numerals do not begin with a blank. -/
theorem not_isSpace {c : Char} (h : isWordStart c = true ∨ c.isDigit = true) : isSpace c = false := by
  cases hspace : isSpace c with
  | false => rfl
  | true =>
      simp only [isSpace, Bool.or_eq_true, decide_eq_true_eq] at hspace
      rcases hspace with ((((rfl | rfl) | rfl) | rfl) | rfl) | rfl <;> rcases h with h | h <;> cases h

/-- Characters that operators begin with are of no other class. -/
theorem other_of_beginsPair {c : Char} (h : beginsPair c = true) :
    isSpace c = false ∧ isWordStart c = false ∧ c.isDigit = false ∧ c ≠ '.' ∧ c ≠ '\x27' := by
  simp only [beginsPair, Bool.or_eq_true, decide_eq_true_eq] at h
  rcases h with ((((((rfl | rfl) | rfl) | rfl) | rfl) | rfl) | rfl) | rfl <;> decide

/-- So are the operators of one character. -/
theorem other_of_operatorOf {c : Char} {kind : TokenKind} (h : operatorOf c = some kind) :
    isSpace c = false ∧ isWordStart c = false ∧ c.isDigit = false ∧ c ≠ '.' ∧ c ≠ '\x27' := by
  unfold operatorOf at h
  split at h
  any_goals decide
  cases h

theorem step_start {c : Char} {next : Reading} : start.step c = some next ↔ next.BegunBy c := by
  constructor
  · intro h
    rw [step] at h
    iterate 6 (split at h; · cases h; simp_all [BegunBy])
    obtain ⟨kind, hkind, rfl⟩ := Option.map_eq_some_iff.1 h
    exact ⟨by simp_all, hkind⟩
  · intro h
    cases next with
    | whitespace => exact if_pos h
    | word => simp [step, not_isSpace (.inl h), show isWordStart c = true from h]
    | integer =>
      have hword : isWordStart c = false := by
        cases hword : isWordStart c with
        | false => rfl
        | true =>
          cases (isDigit_of_isWordStart hword).symm.trans h
      simp [step, not_isSpace (.inr h), hword, show c.isDigit = true from h]
    | leadingDot =>
      cases h
      rfl
    | stringBody =>
      cases h
      rfl
    | opening first =>
      obtain ⟨rfl, hc⟩ := h
      obtain ⟨hspace, hword, hdigit, hdot, hquote⟩ := other_of_beginsPair hc
      simp [step, hspace, hword, hdigit, hdot, hquote, hc]
    | operator kind =>
      obtain ⟨hc, hkind⟩ := h
      obtain ⟨hspace, hword, hdigit, hdot, hquote⟩ := other_of_operatorOf hkind
      simp [step, hspace, hword, hdigit, hdot, hquote, hc, hkind]
    | _ => cases h

end Reading

/-- In front of a parted text every token but a blank has ended. -/
theorem Parted.stalls {text : List Char} (h : Parted text) {reading : Reading}
    (hblank : reading ≠ .whitespace) (haccepts : reading.accepts.isSome = true) :
    reading.Stalls text := by
  rcases h with rfl | ⟨c, rest, rfl, hc⟩ | ⟨c, rest, rfl, hc⟩
  · exact fun _ _ => rfl
  · exact Reading.stalls_of_step (Reading.step_parting hblank haccepts hc) rest
  · cases reading with
    | integer =>
        -- the dot is read, but no digit behind it
        intro taken best
        have hstep : Reading.integerDot.step c = none := by
          rw [Reading.step, isDigit_of_isWordStart hc]
          rfl
        exact Reading.stalls_of_step hstep rest _ best
    | opening first => exact Reading.stalls_of_step (by simp [Reading.step, operatorOfPair]) _
    | whitespace => exact absurd rfl hblank
    | start | integerDot | exponentMark | exponentSign | stringBody | stringEscape =>
        cases haccepts
    | _ => exact Reading.stalls_of_step rfl _

/-- A word that is read as a token, in front of a parted text. -/
theorem spell_lexical {kind : TokenKind} (text : String) (h : Lexical kind text)
    (hblank : kind ≠ .whitespace) {rest : List Char} (hrest : Parted rest) :
    spell (text.toList ++ rest) = (kind, text) :: spell rest := by
  obtain ⟨reading, hne, hafter, hkind⟩ := h
  have hreading : reading ≠ .whitespace := by
    rintro rfl
    exact hblank (Option.some.inj hkind).symm
  have haccepts : reading.accepts.isSome = true := by
    obtain ⟨k, hk, -⟩ := Option.map_eq_some_iff.1 hkind
    rw [hk]
    rfl
  rw [spell_token hne hafter hkind hblank (hrest.stalls hreading haccepts), String.ofList_toList]

-- ============================================================ fixed words

section

variable {rest : List Char}

-- Names and reserved words are read as far as they go.

/-- A text that begins with a word. -/
@[simp high] theorem spell_word {c : Char} (hc : isWordStart c = true) (rest : List Char) :
    let text := String.ofList (c :: rest.takeWhile isWordPart)
    spell (c :: rest) = (.ofWord text, text) :: spell (rest.dropWhile isWordPart) := by
  have hstart : Reading.start.step c = some .word := Reading.step_start.2 hc
  have hread : Reading.start.after (c :: rest.takeWhile isWordPart) = some .word := by
    rw [Reading.after, hstart]
    exact Reading.after_run (fun _ => rfl) (List.all_eq_true.1 List.all_takeWhile)
  have hspell := spell_token (List.cons_ne_nil _ _) hread rfl (TokenKind.ofWord_ne (by decide) (by decide) _)
    (Reading.stalls_dropWhile (fun _ => rfl) rest)
  rwa [List.cons_append, List.takeWhile_append_dropWhile] at hspell

theorem Parted.not_isWordPart {c : Char} (h : Parted (c :: rest)) : isWordPart c = false := by
  rcases h with h | ⟨d, more, h, hd⟩ | ⟨d, more, h, -⟩
  · cases h
  · cases h
    unfold parting at hd
    split at hd <;> first | rfl | cases hd
  · cases h
    rfl

@[simp] theorem Parted.takeWhile_isWordPart (h : Parted rest) : rest.takeWhile isWordPart = [] := by
  cases rest with
  | nil => rfl
  | cons c rest => rw [List.takeWhile_cons, h.not_isWordPart, if_neg Bool.false_ne_true]

@[simp] theorem Parted.dropWhile_isWordPart (h : Parted rest) : rest.dropWhile isWordPart = rest := by
  cases rest with
  | nil => rfl
  | cons c rest => rw [List.dropWhile_cons, h.not_isWordPart, if_neg Bool.false_ne_true]

-- Brackets and the like end wherever they stand.

theorem ne_of_operatorOf {c : Char} {kind : TokenKind} (h : operatorOf c = some kind) :
    kind ≠ .identifier ∧ kind ≠ .whitespace ∧ kind ≠ .endOfInput := by
  unfold operatorOf at h
  split at h <;> cases h <;> decide

theorem ne_of_operatorOfPair {a b : Char} {kind : TokenKind} (h : operatorOfPair a b = some kind) :
    kind ≠ .identifier ∧ kind ≠ .whitespace ∧ kind ≠ .endOfInput := by
  unfold operatorOfPair at h
  split at h <;> cases h <;> decide

/-- A token behind which nothing can be read on. -/
theorem spell_operator {kind : TokenKind} {text : List Char} (hne : text ≠ [])
    (h : Reading.start.after text = some (.operator kind))
    (hidentifier : kind ≠ .identifier) (hblank : kind ≠ .whitespace) (rest : List Char) :
    spell (text ++ rest) = (kind, String.ofList text) :: spell rest := by
  refine spell_token hne h ?_ hblank ?_
  · rw [Reading.kindOf, Reading.accepts, Option.map_some, if_neg hidentifier]
  · intro taken best
    cases rest <;> rfl

/-- A character that is an operator, and begins no other. -/
@[simp] theorem spell_operatorOf {c : Char} (hpair : beginsPair c = false)
    (hc : (operatorOf c).isSome = true) :
    spell (c :: rest) = ((operatorOf c).getD .unmatched, String.ofList [c]) :: spell rest := by
  obtain ⟨kind, hkind⟩ := Option.isSome_iff_exists.1 hc
  have hread : Reading.start.after [c] = some (.operator kind) := by
    have hoperator : Reading.start.step c = some (.operator kind) :=
      Reading.step_start.2 ⟨hpair, hkind⟩
    rw [Reading.after, hoperator]
    rfl
  obtain ⟨hidentifier, hblank, -⟩ := ne_of_operatorOf hkind
  rw [hkind]
  exact spell_operator (List.cons_ne_nil _ _) hread hidentifier hblank rest

/-- Two characters that are an operator. -/
@[simp] theorem spell_operatorOfPair {a b : Char} (ha : beginsPair a = true)
    (h : (operatorOfPair a b).isSome = true) :
    spell (a :: b :: rest)
      = ((operatorOfPair a b).getD .unmatched, String.ofList [a, b]) :: spell rest := by
  obtain ⟨kind, hkind⟩ := Option.isSome_iff_exists.1 h
  have hread : Reading.start.after [a, b] = some (.operator kind) := by
    have hopening : Reading.start.step a = some (.opening a) :=
      Reading.step_start.2 ⟨rfl, ha⟩
    rw [Reading.after, hopening, Option.bind_some, Reading.after, Reading.step, hkind]
    rfl
  obtain ⟨hidentifier, hblank, -⟩ := ne_of_operatorOfPair hkind
  rw [hkind]
  exact spell_operator (List.cons_ne_nil _ _) hread hidentifier hblank rest

theorem spell_semicolon : spell [';'] = [(.semicolon, ";"), (.endOfInput, "")] :=
  (spell_operatorOf rfl rfl).trans (congrArg _ spell_nil)

-- The other operators are told apart by the character behind them.

@[simp high] theorem spell_blank : spell (' ' :: rest) = spell rest := spell_space rfl rest

@[simp high] theorem spell_newline : spell ('\n' :: rest) = spell rest := spell_space rfl rest

@[simp] theorem spell_assign (h : Parted rest) :
    spell ('=' :: rest) = (.assign, "=") :: spell rest :=
  spell_lexical "=" ⟨.opening '=', by decide, rfl, rfl⟩ (by decide) h

theorem spell_minus {c : Char} (hc : c ≠ '>') :
    spell ('-' :: c :: rest) = (.minus, "-") :: spell (c :: rest) := by
  have hpair : operatorOfPair '-' c = none := by
    unfold operatorOfPair
    split <;> simp_all
  refine spell_token (List.cons_ne_nil _ []) (show _ = some (.opening '-') from rfl) rfl (by decide)
    (Reading.stalls_of_step ?_ rest)
  rw [Reading.step, hpair]
  rfl

theorem spell_bang {c : Char} (hc : c ≠ '=') :
    spell ('!' :: c :: rest) = (.bang, "!") :: spell (c :: rest) := by
  have hpair : operatorOfPair '!' c = none := by
    unfold operatorOfPair
    split <;> simp_all
  refine spell_token (List.cons_ne_nil _ []) (show _ = some (.opening '!') from rfl) rfl (by decide)
    (Reading.stalls_of_step ?_ rest)
  rw [Reading.step, hpair]
  rfl

theorem spell_dot {c : Char} (hc : isWordStart c = true) :
    spell ('.' :: c :: rest) = (.dot, ".") :: spell (c :: rest) := by
  refine spell_token (List.cons_ne_nil _ []) (show _ = some .leadingDot from rfl) rfl (by decide)
    (Reading.stalls_of_step ?_ rest)
  rw [Reading.step, isDigit_of_isWordStart hc]
  rfl

end

-- ======================================================== names and numerals

/-- Kinds of token whose text is not given by the kind. -/
def TokenKind.isFree : TokenKind → Bool
  | .identifier | .integer | .float | .coordX | .coordY => true
  | _ => false

theorem isFree_operatorOf {c : Char} {kind : TokenKind} (h : operatorOf c = some kind) :
    kind.isFree = false := by
  unfold operatorOf at h
  split at h <;> cases h <;> rfl

theorem isFree_operatorOfPair {a b : Char} {kind : TokenKind} (h : operatorOfPair a b = some kind) :
    kind.isFree = false := by
  unfold operatorOfPair at h
  split at h <;> cases h <;> rfl

namespace Reading

/-- What a state can be moved to. -/
theorem step_cases {reading next : Reading} {c : Char} (h : reading.step c = some next) :
    next ≠ .start ∧ (next = .word → reading = .start ∧ isWordStart c = true ∨ reading = .word) ∧
      ∀ kind, next = .operator kind → kind.isFree = false := by
  cases reading with
  | start =>
      simp only [step] at h
      iterate 6 (split at h; · cases h; simp_all)
      obtain ⟨kind, hkind, rfl⟩ := Option.map_eq_some_iff.1 h
      simpa using isFree_operatorOf hkind
  | opening first =>
      obtain ⟨kind, hkind, rfl⟩ := Option.map_eq_some_iff.1 h
      simpa using isFree_operatorOfPair hkind
  | _ =>
      simp only [step] at h
      repeat' split at h
      all_goals cases h
      all_goals simp

/-- A word is read from its first character on. -/
theorem after_word {reading : Reading} {text : List Char} (h : reading.after text = some .word) :
    reading = .start ∨ reading = .word := by
  induction text generalizing reading with
  | nil => exact .inr (Option.some.inj h)
  | cons c text ih =>
      obtain ⟨next, hstep, hrest⟩ := Option.bind_eq_some_iff.1 h
      obtain ⟨hstart, hword, -⟩ := step_cases hstep
      exact (hword ((ih hrest).resolve_left hstart)).imp_left And.left

/-- An operator is read to an operator. -/
theorem after_operator {reading : Reading} {text : List Char} {kind : TokenKind}
    (h : reading.after text = some (.operator kind)) :
    reading = .operator kind ∨ kind.isFree = false := by
  induction text generalizing reading with
  | nil => exact .inl (Option.some.inj h)
  | cons c text ih =>
      obtain ⟨next, hstep, hrest⟩ := Option.bind_eq_some_iff.1 h
      exact .inr ((ih hrest).elim (fun hnext => (step_cases hstep).2.2 kind hnext) id)

/-- What begins as an operator is one. -/
theorem after_opening {first : Char} {reading : Reading} {text : List Char}
    (h : (opening first).after text = some reading) :
    reading = .opening first ∨ ∃ kind, reading = .operator kind := by
  cases text with
  | nil => exact .inl (Option.some.inj h).symm
  | cons c text =>
      obtain ⟨next, hstep, hrest⟩ := Option.bind_eq_some_iff.1 h
      obtain ⟨kind, -, rfl⟩ := Option.map_eq_some_iff.1 hstep
      cases text with
      | nil => exact .inr ⟨kind, (Option.some.inj hrest).symm⟩
      | cons d text => cases hrest

/-- A state that accepts an operator reads an operator. -/
theorem isFree_kindOf {reading : Reading} {text : List Char} {accepted kind : TokenKind}
    (haccepts : reading.accepts = some accepted) (hfixed : accepted.isFree = false)
    (h : reading.kindOf text = some kind) : kind.isFree = false := by
  have hne : accepted ≠ .identifier := by
    rintro rfl
    cases hfixed
  rw [kindOf, haccepts, Option.map_some, if_neg hne] at h
  rw [← Option.some.inj h, hfixed]

/-- A state that accepts an operator gives its kind. -/
theorem kindOf_operator {reading : Reading} {text : List Char} {kind : TokenKind}
    (haccepts : reading.accepts = some kind) (hkind : kind.isFree = false) :
    reading.kindOf text = some kind := by
  rw [kindOf, haccepts, Option.map_some, if_neg]
  rintro rfl
  cases hkind

end Reading

namespace Lexical

variable {kind : TokenKind} {text : String}

/-- A name begins as one, and its kind is that of the word. -/
theorem name (h : Lexical kind text)
    (hkind : kind = .identifier ∨ kind = .coordX ∨ kind = .coordY) :
    TokenKind.ofWord text = kind ∧
      ∃ c rest, text.toList = c :: rest ∧ isWordStart c = true := by
  obtain ⟨reading, hne, hafter, hread⟩ := h
  have hfree : kind.isFree = true := by rcases hkind with rfl | rfl | rfl <;> rfl
  have hfixed {accepted : TokenKind} (haccepts : reading.accepts = some accepted) :
      accepted.isFree ≠ false := by
    intro h
    rw [Reading.isFree_kindOf haccepts h hread] at hfree
    cases hfree
  have hword : reading = .word := by
    cases reading with
    | word => rfl
    | operator k => exact absurd ((Reading.after_operator hafter).resolve_left (by simp)) (hfixed rfl)
    | opening first =>
        obtain ⟨accepted, haccepts, -⟩ := Option.map_eq_some_iff.1 hread
        exact absurd (isFree_operatorOf haccepts) (hfixed haccepts)
    | _ => rcases hkind with rfl | rfl | rfl <;> cases hread
  subst hword
  refine ⟨by simpa [Reading.kindOf, Reading.accepts] using hread, ?_⟩
  cases htext : text.toList with
  | nil => exact absurd htext hne
  | cons c rest =>
      rw [htext] at hafter
      obtain ⟨next, hstep, hrest⟩ := Option.bind_eq_some_iff.1 hafter
      obtain ⟨hstart, hword, -⟩ := Reading.step_cases hstep
      obtain ⟨-, hc⟩ := (hword ((Reading.after_word hrest).resolve_left hstart)).resolve_right (by simp)
      exact ⟨c, rest, rfl, hc⟩

/-- A name or a numeral does not begin as an operator of two characters. -/
theorem begins (h : Lexical kind text) (hfree : kind.isFree = true) :
    ∃ c rest, text.toList = c :: rest ∧ c ≠ '=' ∧ c ≠ '>' := by
  obtain ⟨reading, hne, hafter, hread⟩ := h
  cases htext : text.toList with
  | nil => exact absurd htext hne
  | cons c rest =>
      rw [htext] at hafter
      have hopening (hstep : Reading.start.step c = some (.opening c)) : False := by
        obtain ⟨next, hnext, hrest⟩ := Option.bind_eq_some_iff.1 hafter
        rw [hstep] at hnext
        cases hnext
        obtain ⟨accepted, haccepts, -⟩ := Option.map_eq_some_iff.1 hread
        have hfixed : accepted.isFree = false := by
          rcases Reading.after_opening hrest with rfl | ⟨k, rfl⟩
          · exact isFree_operatorOf haccepts
          · cases haccepts
            exact (Reading.after_operator hrest).resolve_left (by simp)
        rw [Reading.isFree_kindOf haccepts hfixed hread] at hfree
        cases hfree
      refine ⟨c, rest, rfl, ?_, ?_⟩
      · rintro rfl
        exact hopening rfl
      · rintro rfl
        exact hopening rfl

end Lexical

-- ================================================================= strings

theorem decode_encode (text : List Char) : Literal.decode (Literal.encode text) = text := by
  induction text with
  | nil => rfl
  | cons c text ih =>
      rw [Literal.encode]
      split
      · rename_i hc
        rcases hc with rfl | rfl
        · rw [Literal.decode, ih]
        · rw [Literal.decode, ih]
      · rename_i hc
        rw [not_or] at hc
        rw [Literal.decode.eq_def]
        split <;> simp_all

/-- A text written as a literal is read back. -/
theorem value_quote (text : String) : Literal.value (Literal.quote text) = text := by
  simp [Literal.value, Literal.quote, decode_encode]

theorem after_encode (text : List Char) :
    Reading.stringBody.after (Literal.encode text) = some .stringBody := by
  induction text with
  | nil => rfl
  | cons c text ih =>
      rw [Literal.encode]
      split
      · rename_i hc
        rcases hc with rfl | rfl
        · exact ih
        · exact ih
      · rename_i hc
        rw [not_or] at hc
        rw [Reading.after, Reading.step, if_neg hc.2, if_neg hc.1]
        exact ih

theorem lexical_quote (text : String) : Lexical .string (Literal.quote text) := by
  refine ⟨.stringClosed, by simp [Literal.quote], ?_, rfl⟩
  have hbody : Reading.start.after ('\x27' :: Literal.encode text.toList) = some .stringBody :=
    after_encode text.toList
  rw [Literal.quote, String.toList_ofList, Reading.after_append hbody]
  rfl

-- ================================================================ scanning

theorem Cursor.offset_le_advanceAll (cs : List Char) (cursor : Cursor) :
    cursor.offset ≤ (cursor.advanceAll cs).offset := by
  induction cs generalizing cursor with
  | nil => exact Nat.le_refl _
  | cons c cs ih => exact Nat.le_trans (Nat.le_add_right _ c.utf8Size) (ih (cursor.advance c))

/-- What is found was found before, or is read to an accepting state. -/
theorem Reading.exists_of_longest {reading : Reading} {taken : Nat}
    {best : Option (TokenKind × Nat)} {text : List Char} {kind : TokenKind} {count : Nat}
    (h : reading.longest taken best text = some (kind, count)) :
    best = some (kind, count) ∨ ∃ n last, count = taken + (n + 1) ∧
      reading.after (text.take (n + 1)) = some last ∧ last.accepts = some kind ∧ n < text.length := by
  induction text generalizing reading taken best with
  | nil => exact .inl h
  | cons c text ih =>
      rw [longest] at h
      cases hstep : reading.step c with
      | none =>
          rw [hstep] at h
          exact .inl h
      | some next =>
          rw [hstep] at h
          rcases ih h with hbest | ⟨n, last, hcount, hafter, haccepts, hn⟩
          · cases hnext : next.accepts with
            | none =>
                rw [hnext] at hbest
                exact .inl hbest
            | some k =>
                rw [hnext] at hbest
                cases hbest
                exact .inr ⟨0, next, rfl, by simp [after, hstep], hnext, by simp⟩
          · refine .inr ⟨n + 1, last, by omega, ?_, haccepts, by simpa using hn⟩
            rw [List.take_succ_cons, after, hstep]
            exact hafter

/-- What is cut off is a token of its kind, if it is anything. -/
theorem Lexeme.lexical_next (c : Char) (rest : List Char)
    (h : (Lexeme.next c rest).kind ≠ .unmatched) :
    Lexical (Lexeme.next c rest).kind (Lexeme.next c rest).text := by
  unfold next at h ⊢
  cases hlongest : Reading.start.longest 0 none (c :: rest) with
  | none =>
      rw [hlongest] at h
      exact absurd rfl h
  | some found =>
      obtain ⟨kind, count⟩ := found
      rcases Reading.exists_of_longest hlongest with hbest | ⟨n, last, rfl, hafter, haccepts, -⟩
      · cases hbest
      · rw [Nat.zero_add, List.take_succ_cons] at *
        refine ⟨last, by simp [Lexeme.text, Lexeme.chars], ?_, ?_⟩
        · simpa [Lexeme.text, Lexeme.chars] using hafter
        · rw [Reading.kindOf, haccepts]
          simp [Lexeme.text, Lexeme.chars]

/-- All that is scanned is lexical. -/
theorem lexical_scanFrom (cursor : Cursor) (text : List Char) :
    ∀ token ∈ Token.scanFrom cursor text, token.kind ≠ .unmatched → token.kind ≠ .endOfInput →
      Lexical token.kind token.lexeme := by
  fun_induction Token.scanFrom cursor text with
  | case1 cursor =>
      intro token hmem _ hend
      rw [List.mem_singleton.1 hmem] at hend
      exact absurd rfl hend
  | case2 cursor c rest lexeme next tokens hblank ih => exact ih
  | case3 cursor c rest lexeme next tokens hblank ih =>
      intro token hmem hmatched hend
      rcases List.mem_cons.1 hmem with rfl | hmem
      · exact Lexeme.lexical_next c rest hmatched
      · exact ih token hmem hmatched hend

end BoardScript
