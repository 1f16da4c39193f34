/-
Scanning loses nothing. The tokens of a text lie in it one behind the other,
each where its own bytes stand, and what lies between them is blank
(`Token.scan_covers`). So a text can be put together again from its tokens
and blanks.

The facts are shown for characters first: where a token is cut out, a stretch
of whole characters stands in front of it (`exists_cut`), and a character
that is in no token is a blank (`isSpace_of_uncovered`). From there they are
read off the bytes.
-/
import BoardScript.Proofs.Token.Longest

namespace BoardScript

-- ============================================================== characters

theorem Span.stop_between {start stop : Nat} (h : start ≤ stop) :
    (between start stop).stop = stop :=
  Nat.add_sub_cancel' h

/-- What is spelled as blanks is blank. -/
theorem TokenKind.Spelled.all_isSpace {text : List Char} (h : TokenKind.whitespace.Spelled text) :
    ∀ c ∈ text, isSpace c = true := by
  cases h with
  | whitespace h =>
      obtain ⟨_, ⟨c, hc, rfl⟩, rest, hrest, rfl⟩ := h
      refine List.forall_mem_cons.2 ⟨hc, ?_⟩
      obtain ⟨pieces, rfl, hpieces⟩ := Language.mem_kstar.1 hrest
      intro d hd
      obtain ⟨piece, hpiece, hmem⟩ := List.mem_flatten.1 hd
      obtain ⟨e, he, rfl⟩ := hpieces piece hpiece
      exact List.mem_singleton.1 hmem ▸ he
  | keyword _ h => simp [keywords] at h
  | operator h =>
      unfold operatorOf at h
      split at h <;> cases h
  | pair h =>
      unfold operatorOfPair at h
      split at h <;> cases h

namespace Lexeme

/-- A cut of blanks has nothing else in it. -/
theorem isSpace_of_whitespace {c : Char} {rest : List Char}
    (h : (next c rest).kind = .whitespace) : ∀ d ∈ (next c rest).chars, isSpace d = true := by
  have hspelled := spelled_next c rest (by rw [h]; exact nofun)
  exact (h ▸ hspelled).all_isSpace

end Lexeme

namespace Token

/-- Tokens do not stand in front of the place at which scanning begins. -/
theorem offset_le_of_mem (cursor : Cursor) (text : List Char) :
    ∀ token ∈ scanFrom cursor text, cursor.offset ≤ token.span.start := by
  fun_induction scanFrom cursor text with
  | case1 cursor =>
      intro token hmem
      rw [List.mem_singleton.1 hmem]
      exact le_rfl
  | case2 cursor c rest lexeme next tokens hblank ih =>
      exact fun token hmem => (Cursor.offset_le_advanceAll _ cursor).trans (ih token hmem)
  | case3 cursor c rest lexeme next tokens hblank ih =>
      refine List.forall_mem_cons.2 ⟨le_rfl, fun token hmem => ?_⟩
      exact (Cursor.offset_le_advanceAll _ cursor).trans (ih token hmem)

theorem scanFrom_ordered (cursor : Cursor) (text : List Char) :
    (scanFrom cursor text).Pairwise fun a b => a.span.stop ≤ b.span.start := by
  fun_induction scanFrom cursor text with
  | case1 cursor => exact List.pairwise_singleton _ _
  | case2 cursor c rest lexeme next tokens hblank ih => exact ih
  | case3 cursor c rest lexeme next tokens hblank ih =>
      refine List.pairwise_cons.2 ⟨fun token hmem => ?_, ih⟩
      rw [Span.stop_between (Cursor.offset_le_advanceAll _ cursor)]
      exact offset_le_of_mem _ _ token hmem

/-- A token is made of the characters that stand at its place, and they were
cut off there. -/
theorem exists_cut (cursor : Cursor) (text : List Char) :
    ∀ token ∈ scanFrom cursor text, token.kind ≠ .endOfInput →
      ∃ front back c rest, text = front ++ (Lexeme.next c rest).chars ++ back ∧
        (Lexeme.next c rest).kind ≠ .whitespace ∧
        token.lexeme = String.ofList (Lexeme.next c rest).chars ∧
        token.span = ⟨cursor.offset + String.utf8Len front,
          String.utf8Len (Lexeme.next c rest).chars⟩ := by
  fun_induction scanFrom cursor text with
  | case1 cursor =>
      intro token hmem hend
      rw [List.mem_singleton.1 hmem] at hend
      exact absurd rfl hend
  | case2 cursor c rest lexeme next tokens hblank ih =>
      intro token hmem hend
      obtain ⟨front, back, d, others, hrest, hkind, hlexeme, hspan⟩ := ih token hmem hend
      refine ⟨lexeme.chars ++ front, back, d, others, ?_, hkind, hlexeme, ?_⟩
      · rw [← Lexeme.chars_next c rest, hrest, List.append_assoc, List.append_assoc,
          List.append_assoc]
      · rw [hspan, Cursor.offset_advanceAll, String.utf8Len_append, Nat.add_assoc]
  | case3 cursor c rest lexeme next tokens hblank ih =>
      refine List.forall_mem_cons.2 ⟨fun _ => ?_, fun token hmem hend => ?_⟩
      · refine ⟨[], _, c, rest, (Lexeme.chars_next c rest).symm, hblank, rfl, ?_⟩
        show Span.between cursor.offset next.offset = _
        rw [Span.between, Cursor.offset_advanceAll, Nat.add_sub_cancel_left]
        rfl
      · obtain ⟨front, back, d, others, hrest, hkind, hlexeme, hspan⟩ := ih token hmem hend
        refine ⟨lexeme.chars ++ front, back, d, others, ?_, hkind, hlexeme, ?_⟩
        · rw [← Lexeme.chars_next c rest, hrest, List.append_assoc, List.append_assoc,
          List.append_assoc]
        · rw [hspan, Cursor.offset_advanceAll, String.utf8Len_append, Nat.add_assoc]

/-- Whether a token takes up a byte. -/
def Covers (token : Token) (place : Nat) : Prop :=
  token.span.start ≤ place ∧ place < token.span.stop

/-- A character of a text that is cut in two stands in one of the parts. -/
theorem mem_parts {first second front back : List Char} {c : Char}
    (h : first ++ second = front ++ c :: back) :
    (∃ inside, first = front ++ c :: inside) ∨
      ∃ more, front = first ++ more ∧ second = more ++ c :: back := by
  rcases List.append_eq_append_iff.1 h with ⟨more, hfront, hsecond⟩ | ⟨inside, hfirst, hsecond⟩
  · exact .inr ⟨more, hfront, hsecond⟩
  · cases inside with
    | nil => exact .inr ⟨[], by simpa using hfirst.symm, hsecond.symm⟩
    | cons d inside =>
        obtain ⟨rfl, -⟩ := List.cons.inj hsecond
        exact .inl ⟨inside, hfirst⟩

/-- A character that has a byte which no token takes up is a blank. -/
theorem isSpace_of_uncovered (cursor : Cursor) (text front back : List Char) (c : Char) (place : Nat)
    (htext : text = front ++ c :: back) (hlow : String.utf8Len front ≤ place)
    (hhigh : place < String.utf8Len front + c.utf8Size)
    (h : ∀ token ∈ scanFrom cursor text, ¬ token.Covers (cursor.offset + place)) :
    isSpace c = true := by
  fun_induction scanFrom cursor text generalizing front place with
  | case1 cursor => simp at htext
  | case2 cursor d rest lexeme next tokens hblank ih =>
      rw [← Lexeme.chars_next d rest] at htext
      change lexeme.chars ++ _ = _ at htext
      rcases mem_parts htext with ⟨inside, hchars⟩ | ⟨more, rfl, hrest⟩
      · apply Lexeme.isSpace_of_whitespace hblank c
        change c ∈ lexeme.chars
        rw [hchars]
        exact List.mem_append_right _ List.mem_cons_self
      · rw [String.utf8Len_append] at hlow hhigh
        apply ih more (place - String.utf8Len lexeme.chars) hrest (by omega) (by omega)
        intro token hmem
        rw [Cursor.offset_advanceAll, Nat.add_assoc, Nat.add_sub_cancel' (by omega)]
        exact h token hmem
  | case3 cursor d rest lexeme next tokens hblank ih =>
      rw [← Lexeme.chars_next d rest] at htext
      change lexeme.chars ++ _ = _ at htext
      obtain ⟨hfirst, hothers⟩ := List.forall_mem_cons.1 h
      rcases mem_parts htext with ⟨inside, hchars⟩ | ⟨more, rfl, hrest⟩
      · -- the character is in the token
        refine absurd ⟨Nat.le_add_right _ _, ?_⟩ hfirst
        show _ < (Span.between cursor.offset next.offset).stop
        rw [Span.stop_between (Cursor.offset_le_advanceAll _ cursor), Cursor.offset_advanceAll, hchars,
          String.utf8Len_append, String.utf8Len_cons]
        omega
      · rw [String.utf8Len_append] at hlow hhigh
        apply ih more (place - String.utf8Len lexeme.chars) hrest (by omega) (by omega)
        intro token hmem
        rw [Cursor.offset_advanceAll, Nat.add_assoc, Nat.add_sub_cancel' (by omega)]
        exact hothers token hmem

/-- The last token is the end of input, behind all of the text. -/
theorem getLast?_scanFrom (cursor : Cursor) (text : List Char) :
    (scanFrom cursor text).getLast? = some (atEnd (cursor.advanceAll text)) := by
  fun_induction scanFrom cursor text with
  | case1 cursor => rfl
  | case2 cursor c rest lexeme next tokens hblank ih =>
      rw [ih, ← Cursor.advanceAll_append, Lexeme.chars_next]
  | case3 cursor c rest lexeme next tokens hblank ih =>
      rw [List.getLast?_cons_of_ne_nil (scanFrom_ne_nil _ _), ih, ← Cursor.advanceAll_append,
        Lexeme.chars_next]

end Token

-- =================================================================== bytes

/-- The bytes of blanks. -/
def blankBytes : List UInt8 := [0x20, 0x09, 0x0a, 0x0d, 0x0b, 0x0c]

theorem utf8Encode_of_isSpace {c : Char} (h : isSpace c = true) :
    ∃ b ∈ blankBytes, [c].utf8Encode = [b].toByteArray := by
  simp only [isSpace, Bool.or_eq_true, decide_eq_true_eq] at h
  rcases h with ((((rfl | rfl) | rfl) | rfl) | rfl) | rfl
  all_goals exact ⟨_, by decide, rfl⟩

/-- A byte of a text belongs to one of its characters. -/
theorem exists_char (text : List Char) (place : Nat) (h : place < String.utf8Len text) :
    ∃ front c back, text = front ++ c :: back ∧ String.utf8Len front ≤ place ∧
      place < String.utf8Len front + c.utf8Size := by
  induction text generalizing place with
  | nil => exact absurd h (Nat.not_lt_zero _)
  | cons c text ih =>
      rw [String.utf8Len_cons] at h
      by_cases hplace : place < c.utf8Size
      · exact ⟨[], c, text, rfl, Nat.zero_le _, by simpa using hplace⟩
      · obtain ⟨front, d, back, rfl, hlow, hhigh⟩ := ih (place - c.utf8Size) (by omega)
        refine ⟨c :: front, d, back, rfl, ?_, ?_⟩
        · rw [String.utf8Len_cons]
          omega
        · rw [String.utf8Len_cons]
          omega

namespace Token

/-- Whether a token stands for the bytes of a text at its span, which begins
and ends between characters. -/
structure CutsOut (token : Token) (text : String) : Prop where
  start_valid : String.Pos.Raw.IsValid text ⟨token.span.start⟩
  stop_valid : String.Pos.Raw.IsValid text ⟨token.span.stop⟩
  bytes : text.toByteArray.extract token.span.start token.span.stop = token.lexeme.toByteArray

theorem cutsOut_of_mem (text : List Char) :
    ∀ token ∈ scanFrom .start text, token.kind ≠ .endOfInput →
      0 < token.span.length ∧ token.CutsOut (String.ofList text) := by
  intro token hmem hend
  obtain ⟨front, back, c, rest, rfl, -, hlexeme, hspan⟩ := exists_cut .start text token hmem hend
  have hne : (Lexeme.next c rest).chars ≠ [] := List.cons_ne_nil _ _
  generalize (Lexeme.next c rest).chars = piece at *
  have hstart : token.span.start = String.utf8Len front := by
    rw [hspan]
    exact Nat.zero_add _
  have hstop : token.span.stop = String.utf8Len (front ++ piece) := by
    rw [Span.stop, hstart, hspan, String.utf8Len_append]
  have hwhole : (String.ofList (front ++ piece ++ back)).toList = front ++ (piece ++ back) := by
    rw [String.toList_ofList, List.append_assoc]
  refine ⟨?_, ?_, ?_, ?_⟩
  · rw [hspan]
    exact Nat.pos_of_ne_zero fun h => hne (String.utf8Len_eq_zero.1 h)
  · rw [hstart]
    exact isValid_utf8Len hwhole
  · rw [hstop]
    exact isValid_utf8Len (hwhole.trans (List.append_assoc front piece back).symm)
  · rw [hlexeme, hstop, hstart]
    exact extract_utf8Len hwhole

/-- A byte of a text that no token takes up is a blank's. -/
theorem mem_blankBytes_of_uncovered (text : List Char) (place : Nat)
    (hplace : place < (String.ofList text).toByteArray.size)
    (h : ∀ token ∈ scanFrom .start text, ¬ token.Covers place) :
    (String.ofList text).toByteArray[place] ∈ blankBytes := by
  rw [size_ofList] at hplace
  obtain ⟨front, c, back, rfl, hlow, hhigh⟩ := exists_char text place hplace
  have hspace := isSpace_of_uncovered .start _ front back c place rfl hlow hhigh
    (by rwa [show Cursor.start.offset + place = place from Nat.zero_add place])
  obtain ⟨b, hb, hbytes⟩ := utf8Encode_of_isSpace hspace
  have hwhole : (String.ofList (front ++ c :: back)).toByteArray
      = (String.ofList front).toByteArray ++ ([b].toByteArray ++ (String.ofList back).toByteArray) := by
    rw [List.append_cons, String.ofList_append, String.ofList_append, String.append_assoc,
      String.toByteArray_append, String.toByteArray_append, ← hbytes,
      ← String.toByteArray_ofList (l := [c])]
  have hone : c.utf8Size = 1 := by
    have hsize := size_ofList [c]
    rw [String.toByteArray_ofList, hbytes, String.utf8Len_cons] at hsize
    simpa using hsize.symm
  obtain rfl : place = (String.ofList front).toByteArray.size := by
    rw [size_ofList]
    omega
  simp only [hwhole]
  rw [ByteArray.getElem_append_right le_rfl, ByteArray.getElem_append_left (by simp)]
  simpa using hb

theorem scan_ordered (text : String) :
    (scan text).Pairwise fun a b => a.span.stop ≤ b.span.start := by
  rw [scan_eq]
  exact scanFrom_ordered _ _

/-- The last token of a text is the end of input, behind all of it, and no
other is. -/
theorem exists_scan_end (text : String) :
    ∃ tokens eof, scan text = tokens ++ [eof] ∧ (∀ token ∈ tokens, token.kind ≠ .endOfInput) ∧
      eof.kind = .endOfInput ∧ eof.span = .before text.utf8ByteSize := by
  obtain ⟨tokens, eof, htokens, hends, heof⟩ := exists_end .start (Comment.blank text.toList)
  have hlast := getLast?_scanFrom .start (Comment.blank text.toList)
  rw [htokens, List.getLast?_append_cons, List.getLast?_singleton, Option.some_inj] at hlast
  refine ⟨tokens, eof, (scan_eq text).trans htokens, hends, heof, ?_⟩
  rw [hlast, atEnd, Cursor.offset_advanceAll, Comment.utf8Len_blank, String.utf8Len_toList]
  exact congrArg Span.before (Nat.zero_add _)

/-- The scanner of a text comes to an end. It never has to cut a character in
two, and never takes nothing. Its last token is the end of input, which is
behind all of the text. The others are pieces of the text without its comment
lines, one behind the other, and every byte between them is a blank's. -/
theorem scan_covers (text : String) :
    ∃ tokens eof, (Scanner.ofText text).tokens? = some (tokens ++ [eof]) ∧
      eof.kind = .endOfInput ∧ eof.span = .before text.utf8ByteSize ∧
      (∀ token ∈ tokens, token.kind ≠ .endOfInput ∧ 0 < token.span.length ∧
        token.CutsOut (.ofList (Comment.blank text.toList))) ∧
      tokens.Pairwise (fun a b => a.span.stop ≤ b.span.start) ∧
      ∀ (place : Nat) (_ : place < (String.ofList (Comment.blank text.toList)).toByteArray.size),
        (∀ token ∈ tokens, ¬ token.Covers place) →
          (String.ofList (Comment.blank text.toList)).toByteArray[place] ∈ blankBytes := by
  obtain ⟨tokens, eof, htokens, hends, heof, hspan⟩ := exists_scan_end text
  rw [scan_eq] at htokens
  have hmem : ∀ token ∈ tokens, token ∈ scanFrom .start (Comment.blank text.toList) := by
    intro token h
    rw [htokens]
    exact List.mem_append_left _ h
  refine ⟨tokens, eof, (Scanner.tokens?_ofText text).trans (congrArg some htokens), heof, hspan,
    fun token h => ?_, ?_, fun place hplace huncovered => ?_⟩
  · exact ⟨hends token h, cutsOut_of_mem _ token (hmem token h) (hends token h)⟩
  · have hordered := scanFrom_ordered .start (Comment.blank text.toList)
    rw [htokens] at hordered
    exact (List.pairwise_append.1 hordered).1
  · apply mem_blankBytes_of_uncovered _ place hplace
    rw [htokens]
    refine List.forall_mem_append.2 ⟨huncovered, List.forall_mem_singleton.2 fun hcovers => ?_⟩
    -- the end of input takes up no byte
    rw [Covers, hspan] at hcovers
    exact absurd (hcovers.1.trans_lt hcovers.2) (Nat.lt_irrefl _)

end Token

end BoardScript
