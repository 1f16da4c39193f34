/-
Blanking comment lines moves nothing (`blank_keeps_positions`). Each line is
blanked by itself, to as many bytes, and keeps its line end, so lines begin
at the same offsets as before.

Columns count characters, and in a blanked line these change. But where a
line was blanked there is nothing but blanks, so no token begins in one. In
front of any other character stand lines that are as long as before and
the same part of its own line (`exists_unblanked`): a cursor that walks there
comes to the same place in either text.
-/
import BoardScript.Proofs.Text.Position
import BoardScript.Proofs.Token.Cover
import Mathlib

namespace BoardScript

namespace Comment

-- =================================================================== lines

/-- A text is a line, or a line in front of a text. -/
@[elab_as_elim]
theorem line_induction {motive : List Char → Prop}
    (last : ∀ line, '\n' ∉ line → motive line)
    (next : ∀ line rest, '\n' ∉ line → motive rest → motive (line ++ '\n' :: rest))
    (text : List Char) : motive text := by
  -- with what has been read of the first line in front
  suffices h : ∀ read, '\n' ∉ read → motive (read ++ text) from h [] List.not_mem_nil
  induction text with
  | nil =>
      intro read hread
      rw [List.append_nil]
      exact last read hread
  | cons c text ih =>
      intro read hread
      by_cases hc : c = '\n'
      · subst hc
        exact next read text hread (ih [] List.not_mem_nil)
      · rw [List.append_cons]
        apply ih
        simpa [hread] using Ne.symm hc

theorem lines_line {line : List Char} (h : '\n' ∉ line) (hne : line ≠ []) : lines line = [line] := by
  induction line with
  | nil => exact absurd rfl hne
  | cons c line ih =>
      obtain ⟨hc, hline⟩ := List.ne_and_not_mem_of_not_mem_cons h
      rw [lines, if_neg (Ne.symm hc)]
      by_cases hnil : line = []
      · rw [hnil]
        rfl
      · rw [ih hline hnil]

theorem lines_cons_line {line : List Char} (h : '\n' ∉ line) (rest : List Char) :
    lines (line ++ '\n' :: rest) = (line ++ ['\n']) :: lines rest := by
  induction line with
  | nil => rfl
  | cons c line ih =>
      obtain ⟨hc, hline⟩ := List.ne_and_not_mem_of_not_mem_cons h
      rw [List.cons_append, lines, if_neg (Ne.symm hc), ih hline]
      rfl

theorem blank_line {line : List Char} (h : '\n' ∉ line) : blank line = blankLine line := by
  by_cases hnil : line = []
  · rw [hnil]
    rfl
  · rw [blank, lines_line h hnil, List.flatMap_singleton]

-- ============================================================== blank lines

theorem isComment_cons {c : Char} (h : isBlank c = false) (rest : List Char) :
    isComment (c :: rest) = (c == '/' && rest.head? == some '/') := by
  rw [isComment, List.dropWhile_cons, if_neg (by simp [h])]
  cases rest <;> simp

theorem isComment_blank {c : Char} (h : isBlank c = true) (rest : List Char) :
    isComment (c :: rest) = isComment rest := by
  rw [isComment, List.dropWhile_cons, if_pos h, isComment]

/-- A line that begins with a quote is no comment. -/
theorem isComment_quote (rest : List Char) : isComment ('\x27' :: rest) = false :=
  isComment_cons rfl rest

/-- There is something in a comment to be blanked. -/
theorem mem_of_isComment {line : List Char} (h : isComment line = true) : '/' ∈ line := by
  induction line with
  | nil => cases h
  | cons c line ih =>
      cases hc : isBlank c with
      | true =>
          rw [isComment_blank hc] at h
          exact List.mem_cons_of_mem _ (ih h)
      | false =>
          rw [isComment_cons hc, Bool.and_eq_true, beq_iff_eq] at h
          rw [h.1]
          exact List.mem_cons_self

theorem isComment_iff {line : List Char} :
    isComment line = true ↔ ['/', '/'] <+: line.dropWhile isBlank := by
  rw [isComment, beq_iff_eq, List.prefix_iff_eq_take, eq_comm]
  rfl

/-- Nothing is left of a comment but blanks and line ends. -/
theorem eq_blank_of_mem {line : List Char} (h : isComment line = true) {c : Char}
    (hmem : c ∈ blankLine line) : c = ' ' ∨ c = '\r' ∨ c = '\n' := by
  rw [blankLine, if_pos h] at hmem
  obtain ⟨d, -, hd⟩ := List.mem_flatMap.1 hmem
  unfold blankChar at hd
  split at hd
  · rename_i hkept
    rw [List.mem_singleton.1 hd]
    exact .inr hkept.symm
  · exact .inl (List.eq_of_mem_replicate hd)

theorem blankLine_of_code {line : List Char} (h : isComment line = false) : blankLine line = line := by
  rw [blankLine, h]
  rfl

theorem newline_notMem_blankLine {line : List Char} (h : '\n' ∉ line) : '\n' ∉ blankLine line := by
  unfold blankLine
  split
  · intro hmem
    obtain ⟨c, hc, hnew⟩ := List.mem_flatMap.1 hmem
    unfold blankChar at hnew
    split at hnew
    · rw [List.mem_singleton.1 hnew] at h
      exact h hc
    · cases List.eq_of_mem_replicate hnew
  · exact h

/-- What is blank is no comment. -/
theorem isComment_of_blank {line : List Char} (h : ∀ c ∈ line, isBlank c = true) :
    isComment line = false :=
  Bool.eq_false_iff.2 fun hcomment => nomatch h _ (mem_of_isComment hcomment)

/-- What has been blanked stays as it is. -/
theorem blankLine_blankLine (line : List Char) : blankLine (blankLine line) = blankLine line := by
  cases h : isComment line with
  | false => rw [blankLine_of_code h, blankLine_of_code h]
  | true =>
      refine blankLine_of_code (isComment_of_blank fun c hc => ?_)
      rcases eq_blank_of_mem h hc with rfl | rfl | rfl <;> decide

theorem blankLine_ne_nil {line : List Char} (h : line ≠ []) : blankLine line ≠ [] := by
  intro hnil
  have hlength := utf8Len_blankLine line
  rw [hnil, eq_comm] at hlength
  exact h (String.utf8Len_eq_zero.1 hlength)

theorem lines_blank (text : List Char) : lines (blank text) = (lines text).map blankLine := by
  induction text using line_induction with
  | last line hline =>
      rw [blank_line hline]
      by_cases hnil : line = []
      · rw [hnil]
        rfl
      · rw [lines_line hline hnil, lines_line (newline_notMem_blankLine hline) (blankLine_ne_nil hnil)]
        rfl
  | next line rest hline ih =>
      rw [blank_join, blank_line hline, lines_cons_line (newline_notMem_blankLine hline), ih,
        lines_cons_line hline, List.map_cons, blankLine_line]

theorem blank_blank (text : List Char) : blank (blank text) = blank text := by
  rw [blank, lines_blank, blank, List.flatMap_map]
  exact congrArg (List.flatMap · (lines text)) (funext blankLine_blankLine)

/-- Lines begin where they began. -/
theorem ofChars_blank (text : List Char) :
    LineIndex.ofChars (blank text) = LineIndex.ofChars text := by
  have hnone : ∀ {line : List Char}, '\n' ∉ line → ∀ offset,
      LineIndex.afterNewlines line offset = [] := by
    intro line hline offset
    rw [← List.length_eq_zero_iff, LineIndex.length_afterNewlines]
    exact List.count_eq_zero_of_not_mem hline
  have hstarts : ∀ offset,
      LineIndex.afterNewlines (blank text) offset = LineIndex.afterNewlines text offset := by
    induction text using line_induction with
    | last line hline =>
        intro offset
        rw [blank_line hline, hnone hline, hnone (newline_notMem_blankLine hline)]
    | next line rest hline ih =>
        intro offset
        rw [blank_join, blank_line hline, LineIndex.afterNewlines_append,
          LineIndex.afterNewlines_append, hnone hline, hnone (newline_notMem_blankLine hline),
          utf8Len_blankLine]
        simp only [LineIndex.afterNewlines, ih]
  rw [LineIndex.ofChars, hstarts]
  rfl

end Comment

-- ================================================================== cursors

/-- How far a line leads depends on its bytes only. -/
theorem Cursor.advance_line {line : List Char} (h : '\n' ∉ line) (cursor : Cursor) :
    (cursor.advanceAll line).advance '\n'
      = ⟨cursor.offset + String.utf8Len line + 1, ⟨cursor.position.line + 1, 1⟩⟩ := by
  rw [advance, if_pos rfl, offset_advanceAll, line_advanceAll, List.count_eq_zero_of_not_mem h]
  rfl

namespace Comment

/-- What is no blank in a text without its comments was there before, and a
cursor that walks to it comes to the same place. -/
theorem exists_unblanked {text front back : List Char} {c : Char}
    (h : blank text = front ++ c :: back) (hc : isSpace c = false) :
    ∃ front' back', text = front' ++ c :: back' ∧
      ∀ cursor : Cursor, cursor.advanceAll front' = cursor.advanceAll front := by
  have hkept : ∀ {line : List Char}, c ∈ blankLine line → blankLine line = line := by
    intro line hmem
    refine blankLine_of_code (Bool.eq_false_iff.2 fun hcomment => ?_)
    rcases eq_blank_of_mem hcomment hmem with rfl | rfl | rfl <;> cases hc
  induction text using line_induction generalizing front with
  | last line hline =>
      rw [blank_line hline] at h
      rw [hkept (h ▸ List.mem_append_right _ List.mem_cons_self)] at h
      exact ⟨front, back, h, fun _ => rfl⟩
  | next line rest hline ih =>
      rw [blank_join, blank_line hline] at h
      rcases Token.mem_parts h with ⟨inside, hinside⟩ | ⟨more, rfl, hmore⟩
      · rw [hkept (hinside ▸ List.mem_append_right _ List.mem_cons_self)] at hinside
        exact ⟨front, inside ++ '\n' :: rest, by rw [hinside]; simp, fun _ => rfl⟩
      · cases more with
        | nil =>
            obtain ⟨rfl, -⟩ := List.cons.inj hmore
            cases hc
        | cons d more =>
            obtain ⟨rfl, hrest⟩ := List.cons.inj hmore
            obtain ⟨front', back', rfl, hcursor⟩ := ih hrest
            refine ⟨line ++ '\n' :: front', back', by simp, fun cursor => ?_⟩
            have hwalk : ∀ first last : List Char, cursor.advanceAll (first ++ '\n' :: last)
                = ((cursor.advanceAll first).advance '\n').advanceAll last :=
              fun first last => Cursor.advanceAll_append cursor first ('\n' :: last)
            rw [hwalk, hwalk, Cursor.advance_line hline,
              Cursor.advance_line (newline_notMem_blankLine hline), utf8Len_blankLine, hcursor]

/-- What becomes of a line: if what is to be seen of it begins with `//` it
is blanked, and otherwise it stays. -/
structure Blanked (line after : List Char) : Prop where
  kept : ¬ ['/', '/'] <+: line.dropWhile isBlank → after = line
  blanks : ['/', '/'] <+: line.dropWhile isBlank → ∀ c ∈ after, c = ' ' ∨ c = '\r' ∨ c = '\n'

theorem blanked_blankLine (line : List Char) : Blanked line (blankLine line) := by
  refine ⟨fun h => blankLine_of_code ?_, fun h c hc => eq_blank_of_mem (isComment_iff.2 h) hc⟩
  rwa [← isComment_iff, Bool.not_eq_true] at h

end Comment

-- ================================================================ positions

/-- A token begins with a character that is no blank, at the place of a
cursor that has walked there. -/
def Token.BeginsIn (cursor : Cursor) (text : List Char) (token : Token) : Prop :=
  ∃ front c back, text = front ++ c :: back ∧ isSpace c = false ∧
    token.span.start = (cursor.advanceAll front).offset ∧
    token.position = (cursor.advanceAll front).position

/-- The cursor walks over what is in front. -/
theorem Token.BeginsIn.behind {cursor : Cursor} {front text : List Char} {token : Token}
    (h : token.BeginsIn (cursor.advanceAll front) text) : token.BeginsIn cursor (front ++ text) := by
  obtain ⟨between, c, back, rfl, hc, hstart, hposition⟩ := h
  refine ⟨front ++ between, c, back, (List.append_assoc ..).symm, hc, ?_, ?_⟩
  · rw [hstart, ← Cursor.advanceAll_append]
  · rw [hposition, ← Cursor.advanceAll_append]

theorem Token.begins_scanFrom (cursor : Cursor) (text : List Char) :
    ∀ token ∈ scanFrom cursor text, token.kind ≠ .endOfInput → token.BeginsIn cursor text := by
  fun_induction scanFrom cursor text with
  | case1 cursor =>
      intro token hmem hend
      rw [List.mem_singleton.1 hmem] at hend
      exact absurd rfl hend
  | case2 cursor c rest lexeme next tokens hblank ih =>
      intro token hmem hend
      exact Lexeme.chars_next c rest ▸ (ih token hmem hend).behind
  | case3 cursor c rest lexeme next tokens hblank ih =>
      refine List.forall_mem_cons.2 ⟨fun _ => ?_, fun token hmem hend => ?_⟩
      · refine ⟨[], c, rest, rfl, Bool.eq_false_iff.2 fun hc => hblank ?_, rfl, rfl⟩
        rw [show lexeme = _ from Lexeme.next_blanks hc rest]
      · exact Lexeme.chars_next c rest ▸ (ih token hmem hend).behind

/-- Blanking comment lines moves nothing. The text keeps its length and the
offsets of its lines; a line whose first visible characters are `//` is left
with blanks, every other line stays; and blanking again changes nothing. So
each token in front of the end of input, which is cut out of the blanked text,
has the position that its offset has in the text as it was. -/
theorem blank_keeps_positions (text : String) :
    let blanked := String.ofList (Comment.blank text.toList)
    blanked.utf8ByteSize = text.utf8ByteSize ∧
    LineIndex.ofChars blanked.toList = LineIndex.ofChars text.toList ∧
    List.Forall₂ Comment.Blanked (Comment.lines text.toList) (Comment.lines blanked.toList) ∧
    Comment.blank blanked.toList = blanked.toList ∧
    ∀ token ∈ Token.scan text, token.kind ≠ .endOfInput →
      token.position = (Source.ofText blanked).position token.span.start ∧
      token.position = (Source.ofText text).position token.span.start := by
  intro blanked
  have hchars : blanked.toList = Comment.blank text.toList := String.toList_ofList
  refine ⟨?_, ?_, ?_, ?_, fun token hmem hend => ?_⟩
  · rw [← String.utf8Len_toList, hchars, Comment.utf8Len_blank, String.utf8Len_toList]
  · rw [hchars, Comment.ofChars_blank]
  · rw [hchars, Comment.lines_blank, List.forall₂_map_right_iff, List.forall₂_same]
    exact fun line _ => Comment.blanked_blankLine line
  · rw [hchars, Comment.blank_blank]
  · rw [Token.scan_eq] at hmem
    obtain ⟨front, c, back, hblank, hc, hstart, hposition⟩ :=
      Token.begins_scanFrom .start _ token hmem hend
    obtain ⟨front', back', htext, hcursor⟩ := Comment.exists_unblanked hblank hc
    have hoffset : ∀ walked : List Char, (Cursor.start.advanceAll walked).offset
        = String.utf8Len walked := by
      intro walked
      rw [Cursor.offset_advanceAll]
      exact Nat.zero_add _
    constructor
    · rw [hposition, hstart, hoffset]
      exact (@Source.position_eq (.ofText blanked) _ _ (hchars.trans hblank)).symm
    · rw [hposition, hstart, ← hcursor .start, hoffset]
      exact (@Source.position_eq (.ofText text) _ _ htext).symm

/-- A string with a comment line in it, and a name behind the string. -/
def commentInString : String := "a = 'é\n // ü' é\n'; b"

/-- The comment is not read, and the name behind it is where it was. -/
theorem blank_keeps_positions_commentInString :
    ∃ token ∈ Token.scan commentInString, token.kind ≠ .endOfInput ∧ token.span = ⟨22, 1⟩ ∧
      token.position = ⟨3, 4⟩ ∧ (Source.ofText commentInString).position 22 = ⟨3, 4⟩ := by
  have hscan : Token.scan commentInString = [⟨.identifier, "a", ⟨0, 1⟩, ⟨1, 1⟩⟩, ⟨.assign, "=", ⟨2, 1⟩, ⟨1, 3⟩⟩,
      ⟨.string, "'é\n          \n'", ⟨4, 16⟩, ⟨1, 5⟩⟩, ⟨.semicolon, ";", ⟨20, 1⟩, ⟨3, 2⟩⟩,
      ⟨.identifier, "b", ⟨22, 1⟩, ⟨3, 4⟩⟩, ⟨.endOfInput, "", ⟨23, 0⟩, ⟨3, 5⟩⟩] := by
    rw [Token.scan_eq]
    cbv
  let name : Token := ⟨.identifier, "b", ⟨22, 1⟩, ⟨3, 4⟩⟩
  have hname : name ∈ Token.scan commentInString := by
    rw [hscan]
    simp [name]
  have hposition := ((blank_keeps_positions commentInString).2.2.2.2 name hname (by decide)).2
  exact ⟨name, hname, by decide, rfl, rfl, hposition.symm⟩

end BoardScript
