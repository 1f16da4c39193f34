/-
Texts that are written as string literals. A literal with a semicolon behind
it is read as a program of one statement, which has the text as its value,
if no line of the text but the first looks like a comment
(`parse_quote_iff`). Comments are blanked before literals are looked for. A
line of that kind is taken out of the literal, and with the last line goes
the quote that closes it, so that the literal has no end.
-/
import BoardScript.Proofs.Program.Joined
import BoardScript.Proofs.Program.Wrapped
import BoardScript.Proofs.Token.Blanked

namespace BoardScript

open Grammar

namespace Literal

open Comment

theorem encode_append (a b : List Char) : encode (a ++ b) = encode a ++ encode b := by
  induction a with
  | nil => rfl
  | cons c a ih =>
      rw [List.cons_append, encode, encode, ih]
      split <;> rfl

/-- Only quotes and backslashes are doubled. -/
theorem encode_plain {text : List Char} (h : ∀ c ∈ text, c ≠ '\x5c' ∧ c ≠ '\x27') :
    encode text = text := by
  induction text with
  | nil => rfl
  | cons c text ih =>
      obtain ⟨hc, htext⟩ := List.forall_mem_cons.1 h
      rw [encode, if_neg (not_or.2 hc), ih htext]

theorem mem_encode {c : Char} {text : List Char} (h : c ∈ encode text) : c ∈ text := by
  induction text with
  | nil => exact h
  | cons d text ih =>
      rw [encode] at h
      split at h
      · rcases List.mem_cons.1 h with rfl | h
        · exact List.mem_cons_self
        · rcases List.mem_cons.1 h with rfl | h
          · exact List.mem_cons_self
          · exact List.mem_cons_of_mem _ (ih h)
      · rcases List.mem_cons.1 h with rfl | h
        · exact List.mem_cons_self
        · exact List.mem_cons_of_mem _ (ih h)

theorem encode_newline (line rest : List Char) :
    encode (line ++ '\n' :: rest) = encode line ++ '\n' :: encode rest := by
  rw [encode_append, encode, if_neg (by decide)]

/-- A line is a comment just when it is one in a literal, also in front of
the closing quote. -/
theorem isComment_encode (line : List Char) {ending : List Char}
    (hending : ending = [] ∨ ∃ rest, ending = '\x27' :: rest) :
    isComment (encode line ++ ending) = isComment line := by
  have hhead : ∀ line, (encode line ++ ending).head? = some '/' ↔ line.head? = some '/' := by
    intro line
    cases line with
    | nil => rcases hending with rfl | ⟨rest, rfl⟩ <;> simp [encode]
    | cons c line =>
        rw [encode]
        split <;> simp
  induction line with
  | nil =>
      rcases hending with rfl | ⟨rest, rfl⟩
      · rfl
      · exact isComment_quote rest
  | cons c line ih =>
      cases hc : isBlank c with
      | true =>
          have hplain : ¬ (c = '\x5c' ∨ c = '\x27') := by
            rintro (rfl | rfl) <;> cases hc
          rw [encode, if_neg hplain, List.cons_append, isComment_blank hc, isComment_blank hc, ih]
      | false =>
          rw [isComment_cons hc, encode]
          split
          · rename_i hspecial
            rw [List.cons_append, isComment_cons hc]
            rcases hspecial with rfl | rfl <;> rfl
          · rw [List.cons_append, isComment_cons hc]
            congr 1
            rw [Bool.eq_iff_iff, beq_iff_eq, beq_iff_eq]
            exact hhead line

/-- A line in a literal, with or without the closing quote: it stays as it
is, or nothing but blanks is left of it. -/
theorem blank_encode_line {line : List Char} (hline : '\n' ∉ line) (ending : List Char)
    (hnone : '\n' ∉ ending) (hending : ending = [] ∨ ∃ rest, ending = '\x27' :: rest) :
    (isComment line = false ∧ blank (encode line ++ ending) = encode line ++ ending) ∨
      isComment line = true ∧ ∃ hidden, blank (encode line ++ ending) = encode hidden ∧
        hidden.count '/' < line.count '/' := by
  have hwhole : '\n' ∉ encode line ++ ending := by
    rw [List.mem_append, not_or]
    exact ⟨fun h => hline (mem_encode h), hnone⟩
  have hsame := isComment_encode line hending
  rw [blank_line hwhole]
  cases hcomment : isComment line with
  | false => exact .inl ⟨rfl, blankLine_of_code (hsame.trans hcomment)⟩
  | true =>
      have hblanks : ∀ c ∈ blankLine (encode line ++ ending), c = ' ' ∨ c = '\r' ∨ c = '\n' :=
        fun c => eq_blank_of_mem (hsame.trans hcomment)
      refine .inr ⟨rfl, _, (encode_plain fun c hc => ?_).symm, ?_⟩
      · rcases hblanks c hc with rfl | rfl | rfl <;> decide
      · rw [List.count_eq_zero.2 fun hmem => ?_]
        · exact List.count_pos_iff.2 (mem_of_isComment hcomment)
        · rcases hblanks _ hmem with h | h | h <;> cases h

/-- A line in a literal with others behind it. -/
theorem exists_blank_line {line : List Char} (hline : '\n' ∉ line) :
    ∃ hidden, blank (encode line) = encode hidden ∧
      (isComment line = false ∧ hidden = line ∨
        isComment line = true ∧ hidden.count '/' < line.count '/') := by
  have h := blank_encode_line hline [] List.not_mem_nil (.inl rfl)
  rw [List.append_nil] at h
  rcases h with ⟨hcode, hblank⟩ | ⟨hcomment, hidden, hblank, hcount⟩
  · exact ⟨line, hblank, .inl ⟨hcode, rfl⟩⟩
  · exact ⟨hidden, hblank, .inr ⟨hcomment, hcount⟩⟩

/-- What closes a literal that is a statement. -/
def closing : List Char := ['\x27', ';']

/-- What is left of the text in a literal: all of it, with what closes it, if
no line is a comment, and else less, perhaps with nothing behind it. -/
theorem blank_encode (text : List Char) :
    ∃ left ending, (ending = closing ∨ ending = []) ∧
      blank (encode text ++ closing) = encode left ++ ending ∧
      ((∀ line ∈ lines text, isComment line = false) ∧ left = text ∧ ending = closing ∨
        (¬ ∀ line ∈ lines text, isComment line = false) ∧ left.count '/' < text.count '/') := by
  induction text using line_induction with
  | last line hline =>
      have hlines : ∀ l ∈ lines line, l = line := by
        intro l hl
        by_cases hnil : line = []
        · subst hnil
          cases hl
        · rw [lines_line hline hnil] at hl
          exact List.mem_singleton.1 hl
      rcases blank_encode_line hline closing (by decide) (.inr ⟨_, rfl⟩) with
        ⟨hcode, hblank⟩ | ⟨hcomment, hidden, hblank, hcount⟩
      · exact ⟨line, closing, .inl rfl, hblank, .inl ⟨fun l hl => by rw [hlines l hl, hcode], rfl, rfl⟩⟩
      · refine ⟨hidden, [], .inr rfl, by rw [hblank, List.append_nil], .inr ⟨fun h => ?_, hcount⟩⟩
        have hne : line ≠ [] := List.ne_nil_of_mem (mem_of_isComment hcomment)
        have hcode := h line (by rw [lines_line hline hne]; exact List.mem_singleton_self _)
        rw [hcomment] at hcode
        cases hcode
  | next line rest hline ih =>
      obtain ⟨hidden, hblank, hfirst⟩ := exists_blank_line hline
      obtain ⟨left, ending, hending, hrest, hleft⟩ := ih
      refine ⟨hidden ++ '\n' :: left, ending, hending, ?_, ?_⟩
      · rw [encode_newline, List.append_assoc, List.cons_append, blank_join, hblank, hrest,
          encode_newline, List.append_assoc, List.cons_append]
      · rw [lines_cons_line hline, List.forall_mem_cons, isComment_line]
        rcases hfirst with ⟨hcode, rfl⟩ | ⟨hcomment, hcount⟩
        · rcases hleft with ⟨hkept, rfl, rfl⟩ | ⟨hlost, hcount⟩
          · exact .inl ⟨⟨hcode, hkept⟩, rfl, rfl⟩
          · exact .inr ⟨fun h => hlost h.2, by simpa using hcount⟩
        · have hle : left.count '/' ≤ rest.count '/' := by
            rcases hleft with ⟨-, rfl, -⟩ | ⟨-, hcount⟩
            · exact Nat.le_refl _
            · exact Nat.le_of_lt hcount
          refine .inr ⟨fun h => ?_, ?_⟩
          · rw [hcomment] at h
            exact nomatch h.1
          · simp only [List.count_append, List.count_cons]
            omega

/-- A literal with a semicolon behind it: it stays as it is, or has lost a
comment behind its first line and perhaps the closing quote. -/
theorem blank_quoted (text : List Char) :
    ((∀ line ∈ (lines text).tail, isComment line = false) ∧
        blank ('\x27' :: (encode text ++ closing)) = '\x27' :: (encode text ++ closing)) ∨
      (¬ ∀ line ∈ (lines text).tail, isComment line = false) ∧
        ∃ left, left ≠ text ∧
          (blank ('\x27' :: (encode text ++ closing)) = '\x27' :: (encode left ++ closing) ∨
            blank ('\x27' :: (encode text ++ closing)) = '\x27' :: encode left) := by
  have hfirst : ∀ line : List Char, '\n' ∉ line → blank ('\x27' :: line) = '\x27' :: line := by
    intro line hline
    have hnone : '\n' ∉ '\x27' :: line := List.not_mem_cons_of_ne_of_not_mem (by decide) hline
    rw [blank_line hnone, blankLine, isComment_quote]
    rfl
  have hencode : ∀ line : List Char, '\n' ∉ line → '\n' ∉ encode line :=
    fun line hline h => hline (mem_encode h)
  induction text using line_induction with
  | last line hline =>
      left
      refine ⟨?_, hfirst _ ?_⟩
      · by_cases hnil : line = []
        · subst hnil
          exact List.forall_mem_nil _
        · rw [lines_line hline hnil]
          exact List.forall_mem_nil _
      · rw [List.mem_append, not_or]
        exact ⟨hencode line hline, by decide⟩
  | next line rest hline _ =>
      obtain ⟨left, ending, hending, hrest, hleft⟩ := blank_encode rest
      have hwhole : blank ('\x27' :: (encode (line ++ '\n' :: rest) ++ closing))
          = '\x27' :: (encode (line ++ '\n' :: left) ++ ending) := by
        rw [encode_newline, List.append_assoc, List.cons_append, ← List.cons_append, blank_join,
          hfirst _ (hencode line hline), hrest, encode_newline]
        simp
      rw [lines_cons_line hline, List.tail_cons]
      rcases hleft with ⟨hkept, rfl, rfl⟩ | ⟨hlost, hcount⟩
      · exact .inl ⟨hkept, hwhole⟩
      · refine .inr ⟨hlost, line ++ '\n' :: left, ?_, ?_⟩
        · intro h
          simp only [List.append_cancel_left_eq, List.cons.injEq, true_and] at h
          rw [h] at hcount
          exact Nat.lt_irrefl _ hcount
        · rcases hending with rfl | rfl
          · exact .inl hwhole
          · exact .inr (by rw [hwhole, List.append_nil])

end Literal

-- ============================================================ open literals

/-- Where a text ends in a literal, the first cut is no token or leaves such
a text behind. -/
theorem Lexeme.next_open {c : Char} {rest : List Char}
    (h : Reading.start.after (c :: rest) = some .stringBody) :
    (next c rest).kind = .unmatched ∨ (next c rest).kind = .string ∧
      Reading.start.after (rest.drop (next c rest).others.length) = some .stringBody := by
  cases hlongest : Reading.start.longest 0 none (c :: rest) with
  | none => exact .inl (by rw [next, hlongest])
  | some found =>
      obtain ⟨kind, count⟩ := found
      obtain ⟨n, last, rfl, hafter, haccepts, hn⟩ :=
        (Reading.exists_of_longest hlongest).resolve_left (Option.some_ne_none _).symm
      right
      -- what is read behind the cut ends in a literal, so the cut does too
      rw [List.take_succ_cons] at hafter
      have hbehind : last.after (rest.drop n) = some .stringBody := by
        rw [← Reading.after_append hafter, List.cons_append, List.take_append_drop, h]
      have hlast : last ≠ .start := by
        rintro rfl
        cases haccepts
      obtain rfl : last = .stringClosed :=
        Reading.inString_accepts haccepts (Reading.inString_after hbehind rfl hlast)
      have hcut : next c rest = ⟨.string, c, rest.take n⟩ := by
        cases haccepts
        simp [next, hlongest]
      rw [hcut]
      refine ⟨rfl, ?_⟩
      rw [List.length_take_of_le (Nat.le_of_lt_succ hn)]
      cases hrest : rest.drop n with
      | nil =>
          rw [hrest] at hbehind
          cases hbehind
      | cons d more =>
          rw [hrest] at hbehind
          obtain ⟨next, hstep, hmore⟩ := Option.bind_eq_some_iff.1 hbehind
          rw [Reading.step] at hstep
          split at hstep
          · rename_i hd
            cases hstep
            rw [hd]
            exact hmore
          · cases hstep

/-- Where a text ends in a literal, a quote is left that is no token. -/
theorem Token.exists_unmatched (cursor : Cursor) (text : List Char)
    (h : Reading.start.after text = some .stringBody) :
    ∃ token ∈ scanFrom cursor text, token.kind = .unmatched := by
  fun_induction scanFrom cursor text with
  | case1 cursor => cases h
  | case2 cursor c rest lexeme next tokens hblank ih =>
      rcases Lexeme.next_open h with hkind | ⟨hkind, -⟩
      · cases hblank.symm.trans hkind
      · cases hblank.symm.trans hkind
  | case3 cursor c rest lexeme next tokens hblank ih =>
      rcases Lexeme.next_open h with hkind | ⟨-, hrest⟩
      · exact ⟨_, List.mem_cons_self, hkind⟩
      · obtain ⟨token, hmem, hkind⟩ := ih hrest
        exact ⟨token, List.mem_cons_of_mem _ hmem, hkind⟩

-- ================================================================= parsing

/-- A text with a character in it that is no token is not read without an
error. -/
theorem parse_ne_of_unmatched {text : String} (root : Node)
    (h : ∃ token ∈ Token.scan text, token.kind = .unmatched) :
    parse {} (.ofText text) ≠ ⟨some root, []⟩ := by
  intro hparse
  obtain ⟨before, eof, hscan, hbefore, heof⟩ := Token.exists_end .start (Comment.blank text.toList)
  have hscanned : Token.scan text = before ++ [eof] := (Token.scan_eq text).trans hscan
  have htokens : parseTokens {} (.ofText text) (before ++ [eof]) = ⟨some root, []⟩ := by
    rw [← hscanned]
    exact hparse
  obtain ⟨d, rfl⟩ := exists_phrase_of_parseTokens hbefore heof htokens
  obtain ⟨token, hmem, hkind⟩ := h
  rw [hscanned] at hmem
  rcases List.mem_append.1 hmem with hmem | hmem
  · exact d.kind_ne unruled_unmatched (fun e => by cases e) token hmem hkind
  · rw [List.mem_singleton.1 hmem, heof] at hkind
    cases hkind

/-- A program that is a string literal. -/
def Node.quoted (value : String) (literal statement whole : Span) : Node :=
  .block [.expression (.string value literal) statement] whole

/-- The tokens of a string literal with a semicolon behind it. -/
theorem parseTokens_quoted (options : ParseOptions) (source : Source) {quoted semicolon after : Token}
    (hquoted : quoted.kind = .string) (hsemicolon : semicolon.kind = .semicolon)
    (hafter : after.kind = .endOfInput) :
    ∃ literal statement whole, parseTokens options source [quoted, semicolon, after]
      = ⟨some (.quoted (Literal.value quoted.lexeme) literal statement whole), []⟩ := by
  let value : Phrase (.nonTerminal .value) := .node 56 rfl (.cons (.ofToken quoted hquoted) .nil)
  have hnear : value.Nearest := ⟨fun e => absurd e (by decide), Phrase.nearest_ofToken _ _, trivial⟩
  have htokens : value.tokens = [quoted] := by simp [value, Phrase.tokens, Phrases.tokens]
  obtain ⟨literal, hvalue⟩ : ∃ literal, value.meaning semicolon.span.start
      = some (.node (.string (Literal.value quoted.lexeme) literal)) := by
    simp only [value, Phrase.meaning, Phrases.meanings, Phrase.meaning_ofToken, Option.bind_some,
      Option.map_some]
    exact ⟨_, rfl⟩
  obtain ⟨statement, hstatement⟩ := value.ofValue.exists_meaning_asStatement semicolon hsemicolon
    (by rw [Phrase.meaning_ofValue, hvalue]) after.span.start
  obtain ⟨whole, hparse⟩ := parseTokens_statement options source
    (Phrase.nearest_asStatement _ _ _ (Phrase.nearest_ofValue hnear)) hafter hstatement
  rw [Phrase.tokens_asStatement, Phrase.tokens_ofValue, htokens] at hparse
  exact ⟨literal, statement, whole, hparse⟩

/-- A text of which a literal is left with a semicolon behind it. -/
theorem parse_of_blank (text value : String)
    (h : Comment.blank text.toList = (Literal.quote value ++ ";").toList) :
    ∃ literal statement whole,
      parse {} (.ofText text) = ⟨some (.quoted value literal statement whole), []⟩ := by
  have hwords : (Token.scan text).map Token.word
      = [(.string, Literal.quote value), (.semicolon, ";"), (.endOfInput, "")] := by
    rw [Token.scan_eq, h, String.toList_append]
    refine (spell_lexical _ (lexical_quote value) (by decide) (parted_cons rfl [])).trans ?_
    exact congrArg _ spell_semicolon
  simp only [List.map_eq_cons_iff, List.map_eq_nil_iff] at hwords
  obtain ⟨quoted, _, hscan, hquoted, semicolon, _, rfl, hsemicolon, after, _, rfl, hafter, rfl⟩ := hwords
  obtain ⟨literal, statement, whole, hparse⟩ := parseTokens_quoted {} (.ofText text)
    (congrArg Prod.fst hquoted) (congrArg Prod.fst hsemicolon) (congrArg Prod.fst hafter)
  have hlexeme : quoted.lexeme = Literal.quote value := congrArg Prod.snd hquoted
  rw [hlexeme, value_quote] at hparse
  refine ⟨literal, statement, whole, ?_⟩
  rw [← hparse, ← hscan]
  rfl

/-- A text is read back from its literal just when none of its lines but the
first looks like a comment. -/
theorem parse_quote_iff (text : String) :
    (∃ literal statement whole, parse {} (.ofText (Literal.quote text ++ ";"))
        = ⟨some (.quoted text literal statement whole), []⟩) ↔
      ∀ line ∈ (Comment.lines text.toList).tail, Comment.isComment line = false := by
  have hchars : ∀ s : String, (Literal.quote s ++ ";").toList
      = '\x27' :: (Literal.encode s.toList ++ Literal.closing) := by
    intro s
    simp [Literal.quote, Literal.closing]
  rcases Literal.blank_quoted text.toList with ⟨hkept, hblank⟩ | ⟨hlost, left, hne, hblank⟩
  · refine iff_of_true (parse_of_blank _ _ ?_) hkept
    rw [hchars, hblank]
  · refine iff_of_false ?_ hlost
    rintro ⟨literal, statement, whole, hparse⟩
    rcases hblank with hblank | hblank
    · -- another text is read
      obtain ⟨literal', statement', whole', hother⟩ :=
        parse_of_blank (Literal.quote text ++ ";") (.ofList left)
          (by rw [hchars, hchars, hblank, String.toList_ofList])
      rw [hparse] at hother
      cases hother
      exact hne String.toList_ofList.symm
    · refine parse_ne_of_unmatched _ ?_ hparse
      rw [Token.scan_eq]
      apply Token.exists_unmatched
      rw [hchars, hblank]
      exact after_encode left

/-- A text with a comment for its last line is not read back. -/
theorem quote_not_read :
    ¬ ∃ literal statement whole, parse {} (.ofText (Literal.quote "\n//" ++ ";"))
      = ⟨some (.quoted "\n//" literal statement whole), []⟩ := by
  have hscan : Token.scan (Literal.quote "\n//" ++ ";")
      = [⟨.unmatched, "'", ⟨0, 1⟩, ⟨1, 1⟩⟩, ⟨.endOfInput, "", ⟨6, 0⟩, ⟨2, 5⟩⟩] := by
    rw [Token.scan_eq]
    cbv
  rintro ⟨literal, statement, whole, hparse⟩
  refine parse_ne_of_unmatched _ ?_ hparse
  rw [hscan]
  exact ⟨_, List.mem_cons_self, rfl⟩

end BoardScript
