/-
Scanning two texts with a line end between them. Comments are whole lines,
so they are blanked in each text by itself (`blank_join`). A token that
stands before the line end is the same as without the rest: nothing is read
on over a line end but blanks and the inside of a string, and a string that
is still open at the end of a text leaves a quote there that is no token
(`Lexeme.next_join`). So the tokens of the whole are those of the first
text and those of the second, further down (`scan_join`).
-/
import BoardScript.Proofs.Token.Spelling
import Mathlib.Data.String.Basic

namespace BoardScript

-- ========================================================== comment lines

namespace Comment

theorem lines_ne_nil (c : Char) (rest : List Char) : lines (c :: rest) ≠ [] := by
  rw [lines]
  split
  · exact List.cons_ne_nil _ _
  · split <;> exact List.cons_ne_nil _ _

theorem flatten_lines (text : List Char) : (lines text).flatten = text := by
  fun_induction lines text with
  | case1 => rfl
  | case2 rest ih => rw [List.flatten_cons, ih]; rfl
  | case3 c rest hc hlines ih =>
      rw [hlines] at ih
      rw [← ih]
      rfl
  | case4 c rest hc line more hlines ih =>
      rw [hlines] at ih
      rw [← ih]
      rfl

/-- A line end ends a line. -/
theorem lines_join (first second : List Char) :
    lines (first ++ '\n' :: second) = lines (first ++ ['\n']) ++ lines second := by
  induction first with
  | nil => rfl
  | cons c first ih =>
      rw [List.cons_append, List.cons_append, lines, lines]
      split
      · rw [ih]
        rfl
      · rw [ih]
        cases hlines : lines (first ++ ['\n']) with
        | nil => cases first <;> exact absurd hlines (lines_ne_nil _ _)
        | cons line more => rfl

/-- The lines of a text with a line end behind it, and those of the text. -/
theorem exists_last (text : List Char) :
    ∃ front last, lines (text ++ ['\n']) = front ++ [last ++ ['\n']] ∧
      lines text = front ++ if last = [] then [] else [last] := by
  induction text with
  | nil => exact ⟨[], [], rfl, rfl⟩
  | cons c text ih =>
      obtain ⟨front, last, hwhole, htext⟩ := ih
      rw [List.cons_append, lines, lines, hwhole, htext]
      split
      · exact ⟨[c] :: front, last, rfl, rfl⟩
      · cases front with
        | nil =>
            refine ⟨[], c :: last, rfl, ?_⟩
            cases last <;> rfl
        | cons line more => exact ⟨(c :: line) :: more, last, rfl, rfl⟩

/-- Whether a line is a comment does not depend on the line end. -/
theorem isComment_line (line : List Char) : isComment (line ++ ['\n']) = isComment line := by
  unfold isComment
  rw [List.dropWhile_append]
  cases hline : line.dropWhile isBlank with
  | nil => rfl
  | cons c rest => cases rest <;> simp

theorem blankLine_line (line : List Char) : blankLine (line ++ ['\n']) = blankLine line ++ ['\n'] := by
  unfold blankLine
  rw [isComment_line]
  split
  · rw [List.flatMap_append]
    rfl
  · rfl

/-- Comments are blanked in each text by itself. -/
theorem blank_join (first second : List Char) :
    blank (first ++ '\n' :: second) = blank first ++ '\n' :: blank second := by
  obtain ⟨front, last, hwhole, hfirst⟩ := exists_last first
  rw [blank, blank, blank, lines_join, hwhole, hfirst, List.flatMap_append, List.flatMap_append,
    List.flatMap_append, List.flatMap_singleton, blankLine_line]
  by_cases h : last = []
  · rw [h, if_pos rfl]
    simp [blankLine, isComment]
  · rw [if_neg h]
    simp

theorem utf8Len_spaces (count : Nat) : String.utf8Len (List.replicate count ' ') = count := by
  induction count with
  | zero => rfl
  | succ count ih =>
      rw [List.replicate_succ, String.utf8Len_cons, ih]
      rfl

theorem utf8Len_blankChar (c : Char) : String.utf8Len (blankChar c) = c.utf8Size := by
  unfold blankChar
  split
  · simp
  · exact utf8Len_spaces _

theorem utf8Len_blankLine (line : List Char) :
    String.utf8Len (blankLine line) = String.utf8Len line := by
  have hchars : String.utf8Len (line.flatMap blankChar) = String.utf8Len line := by
    induction line with
    | nil => rfl
    | cons c line ih =>
        rw [List.flatMap_cons, String.utf8Len_append, ih, utf8Len_blankChar, String.utf8Len_cons,
          Nat.add_comm]
  unfold blankLine
  split
  · exact hchars
  · rfl

/-- Blanking moves nothing. -/
theorem utf8Len_blank (text : List Char) : String.utf8Len (blank text) = String.utf8Len text := by
  have hlines : ∀ lines : List (List Char),
      String.utf8Len (lines.flatMap blankLine) = String.utf8Len lines.flatten := by
    intro lines
    induction lines with
    | nil => rfl
    | cons line lines ih =>
        rw [List.flatMap_cons, List.flatten_cons, String.utf8Len_append, String.utf8Len_append, ih,
          utf8Len_blankLine]
  rw [blank, hlines, flatten_lines]

end Comment

-- ========================================================= open at the end

namespace Reading

/-- A text is either passed over or has a longest token, whatever was found
before. -/
theorem stalls_or (reading : Reading) (text : List Char) : reading.Stalls text ∨
    ∃ kind count, ∀ taken best, reading.longest taken best text = some (kind, taken + (count + 1)) := by
  induction text generalizing reading with
  | nil => exact .inl fun _ _ => rfl
  | cons c text ih =>
      cases hstep : reading.step c with
      | none => exact .inl (stalls_of_step hstep text)
      | some next =>
          rcases ih next with hstall | ⟨kind, count, hfound⟩
          · cases haccepts : next.accepts with
            | none =>
                left
                intro taken best
                rw [longest, hstep]
                simp only [haccepts]
                exact hstall _ _
            | some kind =>
                right
                refine ⟨kind, 0, fun taken best => ?_⟩
                rw [longest, hstep]
                simp only [haccepts]
                exact hstall _ _
          · right
            refine ⟨kind, count + 1, fun taken best => ?_⟩
            rw [longest, hstep]
            simp only [hfound]
            rw [Nat.add_right_comm, Nat.add_assoc taken]

theorem stalls_of_longest {reading : Reading} {text : List Char} {taken : Nat} {kind : TokenKind}
    (h : reading.longest taken (some (kind, taken)) text = some (kind, taken)) :
    reading.Stalls text := by
  rcases reading.stalls_or text with hstall | ⟨kind', count, hfound⟩
  · exact hstall
  · rw [hfound, Option.some.injEq, Prod.mk.injEq] at h
    omega

/-- A state that passes a text over passes the rest over when it has read a
character of it. -/
theorem Stalls.tail {reading next : Reading} {c : Char} {text : List Char}
    (h : reading.Stalls (c :: text)) (hstep : reading.step c = some next) :
    next.accepts = none ∧ next.Stalls text := by
  have hnone := h 0 none
  rw [longest, hstep] at hnone
  rcases next.stalls_or text with hstall | ⟨kind, count, hfound⟩
  · refine ⟨?_, hstall⟩
    cases haccepts : next.accepts with
    | none => rfl
    | some kind =>
        simp only [haccepts] at hnone
        rw [hstall] at hnone
        cases hnone
  · simp only [hfound] at hnone
    cases hnone

theorem Stalls.append {reading : Reading} {text rest : List Char} (h : reading.Stalls text)
    (hrest : ∀ last, reading.after text = some last → last.Stalls rest) :
    reading.Stalls (text ++ rest) := by
  induction text generalizing reading with
  | nil => exact hrest reading rfl
  | cons c text ih =>
      cases hstep : reading.step c with
      | none => exact stalls_of_step hstep _
      | some next =>
          obtain ⟨haccepts, hstall⟩ := h.tail hstep
          have hnext := ih hstall fun last hlast => hrest last (by rw [after, hstep]; exact hlast)
          intro taken best
          rw [List.cons_append, longest, hstep]
          simp only [haccepts]
          exact hnext _ _

/-- Whether a string has been begun. -/
def inString : Reading → Bool
  | stringBody | stringEscape | stringClosed => true
  | _ => false

/-- A string is begun at its first character or not at all. -/
theorem inString_step {reading next : Reading} {c : Char} (h : reading.step c = some next)
    (hnext : next.inString = true) : reading = .start ∨ reading.inString = true := by
  cases reading with
  | start => exact .inl rfl
  | stringBody | stringEscape | stringClosed => exact .inr rfl
  | opening first =>
      obtain ⟨kind, -, rfl⟩ := Option.map_eq_some_iff.1 h
      cases hnext
  | operator kind => cases h
  | _ =>
      simp only [step] at h
      repeat' split at h
      all_goals
        obtain ⟨⟩ := h
        try cases hnext

theorem inString_after {reading last : Reading} {text : List Char}
    (h : reading.after text = some last) (hlast : last.inString = true)
    (hstart : reading ≠ .start) : reading.inString = true := by
  induction text generalizing reading with
  | nil =>
      obtain rfl := Option.some.inj h
      exact hlast
  | cons c text ih =>
      obtain ⟨next, hstep, hrest⟩ := Option.bind_eq_some_iff.1 h
      exact (inString_step hstep (ih hrest (step_cases hstep).1)).resolve_left hstart

theorem inString_accepts {reading : Reading} {kind : TokenKind} (h : reading.accepts = some kind)
    (hstring : reading.inString = true) : reading = .stringClosed := by
  cases reading with
  | stringClosed => rfl
  | stringBody | stringEscape => cases h
  | _ => cases hstring

/-- Blanks are read from the first character on or not at all. -/
theorem whitespace_step {reading : Reading} {c : Char} (h : reading.step c = some .whitespace) :
    (reading = .start ∧ isSpace c = true) ∨ reading = .whitespace := by
  cases reading with
  | start =>
      left
      refine ⟨rfl, ?_⟩
      rw [step] at h
      by_cases hc : isSpace c = true
      · exact hc
      · rw [if_neg hc] at h
        repeat' split at h
        any_goals cases h
        obtain ⟨kind, -, hkind⟩ := Option.map_eq_some_iff.1 h
        cases hkind
  | whitespace => exact .inr rfl
  | opening first =>
      obtain ⟨kind, -, hkind⟩ := Option.map_eq_some_iff.1 h
      cases hkind
  | operator kind => cases h
  | _ =>
      simp only [step] at h
      repeat' split at h
      all_goals cases h

theorem whitespace_after {reading : Reading} {text : List Char}
    (h : reading.after text = some .whitespace) (hstart : reading ≠ .start) :
    reading = .whitespace := by
  induction text generalizing reading with
  | nil => exact Option.some.inj h
  | cons c text ih =>
      obtain ⟨next, hstep, hrest⟩ := Option.bind_eq_some_iff.1 h
      obtain rfl := ih hrest (step_cases hstep).1
      exact (whitespace_step hstep).resolve_left fun hc => hstart hc.1

theorem start_ne_after {reading : Reading} {text : List Char}
    (h : reading.after text = some .start) : reading = .start := by
  induction text generalizing reading with
  | nil => exact Option.some.inj h
  | cons c text ih =>
      obtain ⟨next, hstep, hrest⟩ := Option.bind_eq_some_iff.1 h
      exact absurd (ih hrest) (step_cases hstep).1

/-- Only blanks and the inside of a string go on over a line end. -/
theorem stalls_newline {reading : Reading} (hstart : reading ≠ .start)
    (hblank : reading ≠ .whitespace) (hstring : reading.inString = true → reading = .stringClosed)
    (rest : List Char) : reading.Stalls ('\n' :: rest) := by
  refine stalls_of_step ?_ rest
  cases reading with
  | start => exact absurd rfl hstart
  | whitespace => exact absurd rfl hblank
  | stringBody | stringEscape => cases hstring rfl
  | opening first =>
      have hpair : operatorOfPair first '\n' = none := by
        unfold operatorOfPair
        split <;> simp_all
      rw [step, hpair]
      rfl
  | _ => rfl

end Reading

-- =========================================================== the line end

/-- What begins with anything but a blank is no run of blanks. -/
theorem Reading.ne_whitespace {c : Char} {taken : List Char} {last : Reading}
    (hc : isSpace c = false) (h : start.after (c :: taken) = some last) : last ≠ .whitespace := by
  rintro rfl
  obtain ⟨next, hstep, hrest⟩ := Option.bind_eq_some_iff.1 h
  obtain rfl := whitespace_after hrest (step_cases hstep).1
  rcases whitespace_step hstep with ⟨-, hspace⟩ | hwrong
  · rw [hc] at hspace
    cases hspace
  · cases hwrong

/-- Where a literal is opened anew behind its end and never closed, no token
is made of the quote that opens it. -/
theorem Lexeme.unmatched_of_stalls {behind : List Char} {reading : Reading}
    (hstall : Reading.stringClosed.Stalls behind)
    (h : Reading.stringClosed.after behind = some reading) (hopen : reading ≠ .stringClosed) :
    ∃ d more, behind = d :: more ∧ (next d more).kind = .unmatched := by
  cases behind with
  | nil => exact absurd (Option.some.inj h).symm hopen
  | cons d more =>
      obtain ⟨reading, hstep, -⟩ := Option.bind_eq_some_iff.1 h
      obtain ⟨rfl, rfl⟩ : d = '\x27' ∧ reading = .stringBody := by
        rw [Reading.step] at hstep
        split at hstep
        · rename_i hd
          exact ⟨hd, (Option.some.inj hstep).symm⟩
        · cases hstep
      have hmore : Reading.start.longest 0 none ('\x27' :: more) = none :=
        (hstall.tail hstep).2 1 none
      exact ⟨'\x27', more, rfl, by rw [Lexeme.next, hmore]⟩

/-- What stands in front of a line end is cut as if nothing came behind it,
unless it leaves a quote behind. -/
theorem Lexeme.next_join {c : Char} {first : List Char} (hc : isSpace c = false)
    (hmatched : (next c first).kind ≠ .unmatched)
    (hbehind : ∀ d more, first.drop (next c first).others.length = d :: more →
      (next d more).kind ≠ .unmatched) (second : List Char) :
    next c (first ++ '\n' :: second) = next c first := by
  cases hlongest : Reading.start.longest 0 none (c :: first) with
  | none =>
      unfold next at hmatched
      rw [hlongest] at hmatched
      exact absurd rfl hmatched
  | some found =>
      obtain ⟨kind, count⟩ := found
      rcases Reading.exists_of_longest hlongest with hbest | ⟨n, last, rfl, hafter, haccepts, hn⟩
      · cases hbest
      · -- the token is `c` with the next `n` characters, and `behind` is left of the text
        obtain ⟨taken, behind, rfl, rfl⟩ : ∃ taken behind, first = taken ++ behind ∧ taken.length = n :=
          ⟨first.take n, first.drop n, (List.take_append_drop n first).symm,
            List.length_take_of_le (Nat.le_of_lt_succ hn)⟩
        rw [List.take_succ_cons, List.take_left] at hafter
        have hlast : last ≠ .start := by
          rintro rfl
          cases haccepts
        have hstall : last.Stalls behind := by
          rw [← List.cons_append, Reading.longest_after hafter (List.cons_ne_nil _ _) haccepts,
            List.length_cons] at hlongest
          exact Reading.stalls_of_longest hlongest
        obtain ⟨kind', hkind⟩ : ∃ kind', last.kindOf (c :: taken) = some kind' :=
          ⟨_, by rw [Reading.kindOf, haccepts]; rfl⟩
        have hnext := next_append hafter hkind hstall
        rw [hnext] at hbehind ⊢
        rw [List.append_assoc]
        refine next_append hafter hkind (hstall.append fun reading hreading => ?_)
        refine Reading.stalls_newline ?_ ?_ (fun hstring => by_contra fun hopen => ?_) _
        · rintro rfl
          exact hlast (Reading.start_ne_after hreading)
        · rintro rfl
          exact Reading.ne_whitespace hc hafter (Reading.whitespace_after hreading hlast)
        · -- only behind the end of a literal can another be open
          obtain rfl : last = .stringClosed :=
            Reading.inString_accepts haccepts (Reading.inString_after hreading hstring hlast)
          obtain ⟨d, more, rfl, hunmatched⟩ := unmatched_of_stalls hstall hreading hopen
          exact hbehind d more List.drop_left hunmatched

theorem Lexeme.chars_next (c : Char) (rest : List Char) :
    (next c rest).chars ++ rest.drop (next c rest).others.length = c :: rest := by
  unfold next
  split
  · rfl
  · rename_i kind taken hlongest
    have hrest : rest.drop (rest.take (taken - 1)).length = rest.drop (taken - 1) :=
      List.drop_eq_drop_iff.2 (by rw [List.length_take, Nat.min_assoc, Nat.min_self])
    simp only [chars, List.cons_append, hrest, List.take_append_drop]

theorem Cursor.advanceAll_append (cursor : Cursor) (a b : List Char) :
    cursor.advanceAll (a ++ b) = (cursor.advanceAll a).advanceAll b := List.foldl_append

namespace Token

theorem scanFrom_ne_nil (cursor : Cursor) (text : List Char) : scanFrom cursor text ≠ [] := by
  fun_induction scanFrom cursor text with
  | case1 cursor => exact List.cons_ne_nil _ _
  | case2 cursor c rest lexeme next tokens hblank ih => exact ih
  | case3 cursor c rest lexeme next tokens hblank ih => exact List.cons_ne_nil _ _

/-- Whether all of a text is made of tokens. -/
def Matched (cursor : Cursor) (text : List Char) : Prop :=
  ∀ token ∈ scanFrom cursor text, token.kind ≠ .unmatched

theorem Matched.next {cursor : Cursor} {c : Char} {rest : List Char}
    (h : Matched cursor (c :: rest)) : (Lexeme.next c rest).kind ≠ .unmatched := by
  rw [Matched, scanFrom] at h
  by_cases hblank : (Lexeme.next c rest).kind = .whitespace
  · rw [hblank]
    exact TokenKind.noConfusion
  · simp only [if_neg hblank] at h
    exact h _ List.mem_cons_self

theorem Matched.rest {cursor : Cursor} {c : Char} {rest : List Char}
    (h : Matched cursor (c :: rest)) :
    Matched (cursor.advanceAll (Lexeme.next c rest).chars)
      (rest.drop (Lexeme.next c rest).others.length) := by
  rw [Matched, scanFrom] at h
  by_cases hblank : (Lexeme.next c rest).kind = .whitespace
  · rwa [if_pos hblank] at h
  · simp only [if_neg hblank] at h
    exact fun token hmem => h token (List.mem_cons_of_mem _ hmem)

/-- The tokens in front of a line end are those of the text that ends there,
without the end of input. -/
theorem scanFrom_join {cursor : Cursor} {first : List Char} (h : Matched cursor first)
    (second : List Char) :
    scanFrom cursor (first ++ '\n' :: second) = (scanFrom cursor first).dropLast ++
      scanFrom ((cursor.advanceAll first).advance '\n') second := by
  induction hlength : first.length using Nat.strong_induction_on generalizing cursor first with
  | _ length ih =>
      subst hlength
      cases first with
      | nil =>
          rw [List.nil_append, scanFrom_space rfl, scanFrom]
          rfl
      | cons c first =>
          by_cases hc : isSpace c = true
          · -- a blank is passed over in both texts
            rw [Matched, scanFrom_space hc] at h
            rw [scanFrom_space hc, List.cons_append, scanFrom_space hc,
              ih _ (Nat.lt_succ_self _) h rfl]
            rfl
          · have hcut : Lexeme.next c (first ++ '\n' :: second) = Lexeme.next c first := by
              refine Lexeme.next_join (by simpa using hc) h.next (fun d more hbehind => ?_) second
              exact (hbehind ▸ h.rest).next
            have htaken : (Lexeme.next c first).others.length ≤ first.length := by
              have := congrArg List.length (Lexeme.chars_next c first)
              simp only [List.length_append, Lexeme.chars, List.length_cons] at this
              omega
            have hrest := ih _ (by rw [List.length_drop, List.length_cons]; omega) h.rest rfl
            rw [← Cursor.advanceAll_append, Lexeme.chars_next] at hrest
            rw [List.cons_append, scanFrom, scanFrom, hcut, List.drop_append_of_le_length htaken]
            split
            · exact hrest
            · rw [hrest, List.dropLast_cons_of_ne_nil (scanFrom_ne_nil _ _)]
              rfl

end Token

-- ======================================================= the end of input

namespace Reading

theorem step_ne_end {reading : Reading} {c : Char} :
    reading.step c ≠ some (.operator .endOfInput) := by
  intro h
  cases reading with
  | start =>
      simp only [step] at h
      iterate 6 (split at h; · cases h)
      obtain ⟨kind, hkind, hend⟩ := Option.map_eq_some_iff.1 h
      cases hend
      exact (ne_of_operatorOf hkind).2.2 rfl
  | opening first =>
      obtain ⟨kind, hkind, hend⟩ := Option.map_eq_some_iff.1 h
      cases hend
      exact (ne_of_operatorOfPair hkind).2.2 rfl
  | _ =>
      simp only [step] at h
      repeat' split at h
      all_goals cases h

theorem after_ne_end {reading : Reading} {text : List Char}
    (h : reading.after text = some (.operator .endOfInput)) : reading = .operator .endOfInput := by
  induction text generalizing reading with
  | nil => exact Option.some.inj h
  | cons c text ih =>
      obtain ⟨next, hstep, hrest⟩ := Option.bind_eq_some_iff.1 h
      exact absurd (ih hrest ▸ hstep) step_ne_end

end Reading

/-- No text is read as the end of input. -/
theorem Lexical.ne_end {kind : TokenKind} {text : String} (h : Lexical kind text) :
    kind ≠ .endOfInput := by
  rintro rfl
  obtain ⟨reading, -, hafter, hread⟩ := h
  obtain ⟨accepted, haccepts, hkind⟩ := Option.map_eq_some_iff.1 hread
  split at hkind
  · exact TokenKind.ofWord_ne (by decide) (by decide) _ hkind
  · subst hkind
    cases reading with
    | operator kind =>
        cases haccepts
        cases Reading.after_ne_end hafter
    | opening first => exact (ne_of_operatorOf haccepts).2.2 rfl
    | _ => cases haccepts

namespace Token

/-- What is scanned ends with the one end of input. -/
theorem exists_end (cursor : Cursor) (text : List Char) :
    ∃ before eof, scanFrom cursor text = before ++ [eof] ∧
      (∀ token ∈ before, token.kind ≠ .endOfInput) ∧ eof.kind = .endOfInput := by
  fun_induction scanFrom cursor text with
  | case1 cursor => exact ⟨[], _, rfl, fun _ h => absurd h List.not_mem_nil, rfl⟩
  | case2 cursor c rest lexeme next tokens hblank ih => exact ih
  | case3 cursor c rest lexeme next tokens hblank ih =>
      obtain ⟨before, eof, htokens, hbefore, heof⟩ := ih
      refine ⟨_ :: before, eof, congrArg (List.cons _) htokens, ?_, heof⟩
      refine List.forall_mem_cons.2 ⟨fun hend => ?_, hbefore⟩
      refine (Lexeme.lexical_next c rest fun hunmatched => ?_).ne_end hend
      cases hunmatched.symm.trans hend

end Token

-- ============================================================= further down

/-- The same run of bytes, so many bytes further on. -/
def Span.shift (bytes : Nat) (s : Span) : Span := ⟨s.start + bytes, s.length⟩

/-- The same column, so many lines further down. -/
def Position.down (lines : Nat) (p : Position) : Position := ⟨p.line + lines, p.column⟩

namespace Cursor

def shift (bytes lines : Nat) (cursor : Cursor) : Cursor :=
  ⟨cursor.offset + bytes, cursor.position.down lines⟩

variable (bytes lines : Nat) (cursor : Cursor)

theorem advance_shift (c : Char) :
    (cursor.shift bytes lines).advance c = (cursor.advance c).shift bytes lines := by
  unfold advance shift Position.down
  split <;> simp only [Nat.add_right_comm]

theorem advanceAll_shift (text : List Char) :
    (cursor.shift bytes lines).advanceAll text = (cursor.advanceAll text).shift bytes lines := by
  induction text generalizing cursor with
  | nil => rfl
  | cons c text ih =>
      show ((cursor.shift bytes lines).advance c).advanceAll text = _
      rw [advance_shift, ih]
      rfl

theorem offset_advanceAll (text : List Char) :
    (cursor.advanceAll text).offset = cursor.offset + String.utf8Len text := by
  induction text generalizing cursor with
  | nil => rfl
  | cons c text ih =>
      show ((cursor.advance c).advanceAll text).offset = _
      rw [ih, String.utf8Len_cons]
      simp only [advance]
      omega

/-- A line end leads to the first column of a line further down. -/
theorem exists_shift (text : List Char) :
    ∃ lines, (start.advanceAll text).advance '\n' = start.shift (String.utf8Len text + 1) lines := by
  have hoffset : (start.advanceAll text).offset = String.utf8Len text := by
    rw [offset_advanceAll]
    exact Nat.zero_add _
  refine ⟨(start.advanceAll text).position.line, ?_⟩
  rw [advance, if_pos rfl, hoffset, shift, Position.down, start, Nat.zero_add, Nat.add_comm 1]
  rfl

end Cursor

namespace Token

/-- A text further down has the same tokens further down. -/
theorem scanFrom_shift (bytes lines : Nat) (cursor : Cursor) (text : List Char) :
    scanFrom (cursor.shift bytes lines) text
      = (scanFrom cursor text).map (moved (Span.shift bytes) (Position.down lines)) := by
  fun_induction scanFrom cursor text with
  | case1 cursor => rw [scanFrom]; rfl
  | case2 cursor c rest lexeme next tokens hblank ih =>
      rw [scanFrom, if_pos hblank, Cursor.advanceAll_shift]
      exact ih
  | case3 cursor c rest lexeme next tokens hblank ih =>
      rw [scanFrom, if_neg hblank, Cursor.advanceAll_shift, List.map_cons]
      refine congrArg₂ List.cons ?_ ih
      have hspan : Span.between (cursor.offset + bytes) (next.offset + bytes)
          = (Span.between cursor.offset next.offset).shift bytes := by
        rw [Span.between, Span.between, Span.shift, Nat.add_sub_add_right]
      exact congrArg (Token.mk _ _ · _) hspan

end Token

end BoardScript
