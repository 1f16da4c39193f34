/-
Where tokens lie in the text as it was written. They are cut out of the text
without its comment lines, in which other characters may stand at a place.
But a token begins and ends with characters that are no blanks, and those are
in both texts, with as many bytes in front of them. So the span of a token
begins and ends between characters of the text as it was (`Token.lies_of_mem`).
-/
import BoardScript.Proofs.Text.Span
import BoardScript.Proofs.Token.Blanked

namespace BoardScript

-- ========================================================== last characters

/-- Blanks are read by blanks, and inside of a string. -/
theorem Reading.step_space {reading next : Reading} {c : Char} (hc : isSpace c = true)
    (hstep : reading.step c = some next) : next = .whitespace ∨ next = .stringBody := by
  simp only [isSpace, Bool.or_eq_true, decide_eq_true_eq] at hc
  rcases hc with ((((rfl | rfl) | rfl) | rfl) | rfl) | rfl
  all_goals
    cases reading with
    | start | whitespace => exact .inl (Option.some.inj hstep).symm
    | stringBody | stringEscape => exact .inr (Option.some.inj hstep).symm
    | opening first => simp [step, operatorOfPair] at hstep
    | _ => cases hstep

theorem Reading.after_concat {reading last : Reading} {text : List Char} {c : Char}
    (h : reading.after (text ++ [c]) = some last) :
    ∃ middle, reading.after text = some middle ∧ middle.step c = some last := by
  induction text generalizing reading with
  | nil =>
      obtain ⟨next, hstep, hnext⟩ := Option.bind_eq_some_iff.1 h
      exact ⟨reading, rfl, hstep.trans hnext⟩
  | cons d text ih =>
      obtain ⟨next, hstep, hnext⟩ := Option.bind_eq_some_iff.1 h
      obtain ⟨middle, hmiddle, hlast⟩ := ih hnext
      exact ⟨middle, Option.bind_eq_some_iff.2 ⟨next, hstep, hmiddle⟩, hlast⟩

/-- What is spelled as a token other than blanks does not end with one. -/
theorem TokenKind.Spelled.not_isSpace {kind : TokenKind} {text : List Char} {c : Char}
    (h : kind.Spelled (text ++ [c])) (hkind : kind ≠ .whitespace) : isSpace c = false := by
  obtain ⟨last, hafter, hlast⟩ := spelled_iff.1 h
  obtain ⟨middle, -, hstep⟩ := Reading.after_concat hafter
  refine Bool.eq_false_iff.2 fun hspace => ?_
  rcases Reading.step_space hspace hstep with rfl | rfl
  · exact hkind (Option.some.inj hlast).symm
  · cases hlast

/-- A cut that is no blank begins and ends with characters that are none. -/
theorem Lexeme.visible {c : Char} {rest : List Char} (h : (next c rest).kind ≠ .whitespace) :
    (∃ back, (next c rest).chars = c :: back ∧ isSpace c = false) ∧
      ∃ front last, (next c rest).chars = front ++ [last] ∧ isSpace last = false := by
  have hfirst : isSpace c = false :=
    Bool.eq_false_iff.2 fun hc => h (by rw [next_blanks hc])
  have hchars : (next c rest).chars = c :: (next c rest).others := by
    unfold next chars
    split <;> rfl
  refine ⟨⟨_, hchars, hfirst⟩, ?_⟩
  rcases next_longest c rest with ⟨⟨hspelled, -, -⟩, -⟩ | ⟨-, hnext⟩
  · obtain ⟨front, last, hlast⟩ : ∃ front last, (next c rest).chars = front ++ [last] := by
      rcases List.eq_nil_or_concat (next c rest).chars with hnil | ⟨front, last, hlast⟩
      · rw [hchars] at hnil
        cases hnil
      · exact ⟨front, last, by rw [hlast, List.concat_eq_append]⟩
    exact ⟨front, last, hlast, (hlast ▸ hspelled).not_isSpace h⟩
  · rw [hnext]
    exact ⟨[], c, rfl, hfirst⟩

-- =================================================================== places

/-- Around a character that is no blank the text without comments has the
places of the text. -/
theorem Comment.isValid_of_visible {text : String} {front back : List Char} {c : Char}
    (h : blank text.toList = front ++ c :: back) (hc : isSpace c = false) :
    String.Pos.Raw.IsValid text ⟨String.utf8Len front⟩ ∧
      String.Pos.Raw.IsValid text ⟨String.utf8Len front + c.utf8Size⟩ := by
  obtain ⟨front', back', htext, hcursor⟩ := exists_unblanked h hc
  have hlength : String.utf8Len front = String.utf8Len front' := by
    have hoffset := congrArg Cursor.offset (hcursor ⟨0, ⟨1, 1⟩⟩)
    rw [Cursor.offset_advanceAll, Cursor.offset_advanceAll] at hoffset
    exact (Nat.add_left_cancel hoffset).symm
  rw [hlength]
  refine ⟨Token.isValid_utf8Len htext, ?_⟩
  have hbehind := Token.isValid_utf8Len (htext.trans (List.append_cons front' c back'))
  rwa [String.utf8Len_append, String.utf8Len_cons, String.utf8Len_nil, Nat.zero_add] at hbehind

/-- The tokens of a text lie in it. -/
theorem Token.lies_of_mem {text : String} : ∀ token ∈ scan text, token.span.Lies text := by
  intro token hmem
  by_cases hend : token.kind = .endOfInput
  · -- the end of input is behind all of the text
    obtain ⟨tokens, eof, htokens, hends, -, hspan⟩ := exists_scan_end text
    rw [htokens, List.mem_append, List.mem_singleton] at hmem
    obtain rfl := hmem.resolve_left fun h => hends token h hend
    have hvalid : String.Pos.Raw.IsValid text ⟨text.utf8ByteSize⟩ := by
      have h := isValid_utf8Len (List.append_nil text.toList).symm
      rwa [String.utf8Len_toList] at h
    rw [hspan]
    exact ⟨hvalid, hvalid⟩
  · rw [scan_eq] at hmem
    obtain ⟨front, back, c, rest, htext, hkind, -, hspan⟩ := exists_cut .start _ token hmem hend
    obtain ⟨⟨others, hfirst, hc⟩, init, last, hlast, hl⟩ := Lexeme.visible hkind
    have hstart : token.span.start = String.utf8Len front := by
      rw [hspan]
      exact Nat.zero_add _
    have hstop : token.span.stop = String.utf8Len (front ++ init) + last.utf8Size := by
      rw [Span.stop, hstart, hspan, hlast, String.utf8Len_append, String.utf8Len_append]
      simp [Nat.add_assoc]
    constructor
    · rw [hstart]
      rw [hfirst, List.append_assoc] at htext
      exact (Comment.isValid_of_visible htext hc).1
    · rw [hstop]
      rw [hlast, List.append_assoc, List.append_assoc, ← List.append_assoc] at htext
      exact (Comment.isValid_of_visible htext hl).2

end BoardScript
