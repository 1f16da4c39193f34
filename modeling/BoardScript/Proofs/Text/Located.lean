/-
The line and the column of every offset (`positions_exact`). Lines are
counted by the bytes in front of an offset, so it need not lie between
characters, nor in the text: the byte of a newline is in no other character,
so a newline is in front of an offset as soon as its byte is
(`LineIndex.countP_afterNewlines`).

An offset between characters has the column that its characters give it. Of
the others one inside of a character counts the bytes of its line
(`Source.position_inside`), and one past the end is where the text ends
(`Source.position_pastEnd`).
-/
import BoardScript.Proofs.Text.Position
import Mathlib.Data.List.DropRight

namespace BoardScript

-- ============================================================== newlines

/-- How many newlines are among the first bytes of a text. -/
def newlinesWithin (text : String) (bytes : Nat) : Nat :=
  (text.toByteArray.data.toList.take bytes).count 0x0a

/-- The byte of a newline is in no other character. -/
theorem eq_newline_of_mem {c : Char} (h : 0x0a ∈ String.utf8EncodeChar c) : c = '\n' := by
  have hbyte : ∀ {byte : Nat}, (0x0a : UInt8) = .ofNat byte → 0x0a = byte % 2 ^ 8 := fun h =>
    (congrArg UInt8.toNat h).trans UInt8.toNat_ofNat'
  -- where a character has more than one byte, they are all 0x80 or above
  have hwide : ∀ {byte : Nat}, 0x80 ≤ byte → byte < 2 ^ 8 → (0x0a : UInt8) ≠ .ofNat byte := by
    intro byte hlow hhigh h
    have := hbyte h
    omega
  revert h
  fun_cases String.utf8EncodeChar c with
  | case1 v hv =>
      intro h
      have := hbyte (List.mem_singleton.1 h)
      exact Char.ext (UInt32.toNat_inj.1 (by show c.val.toNat = 10; omega))
  | case2 v =>
      simp only [List.mem_cons, List.not_mem_nil, or_false]
      rintro (h | h) <;> exact absurd h (hwide (by omega) (by omega))
  | case3 v =>
      simp only [List.mem_cons, List.not_mem_nil, or_false]
      rintro (h | h | h) <;> exact absurd h (hwide (by omega) (by omega))
  | case4 v =>
      simp only [List.mem_cons, List.not_mem_nil, or_false]
      rintro (h | h | h | h) <;> exact absurd h (hwide (by omega) (by omega))

-- ================================================================= lines

namespace LineIndex

/-- A line begins behind a character just if its bytes have a newline in
them, wherever they are cut off. -/
theorem countP_afterNewline (c : Char) (offset bytes : Nat) :
    (afterNewlines [c] offset).countP (· ≤ offset + bytes)
      = ((String.utf8EncodeChar c).take bytes).count 0x0a := by
  by_cases hc : c = '\n'
  · subst hc
    have hbytes : String.utf8EncodeChar '\n' = [0x0a] := rfl
    have hsize : '\n'.utf8Size = 1 := rfl
    rw [afterNewlines, if_pos rfl, hbytes, hsize]
    cases bytes with
    | zero => simp [afterNewlines]
    | succ bytes => simp [afterNewlines]
  · rw [List.count_eq_zero_of_not_mem fun h => hc (eq_newline_of_mem (List.mem_of_mem_take h)),
      afterNewlines, if_neg hc]
    rfl

/-- Of the lines of a text as many begin up to an offset as there are
newlines among its bytes up to there. -/
theorem countP_afterNewlines (text : List Char) (offset bytes : Nat) :
    (afterNewlines text offset).countP (· ≤ offset + bytes)
      = ((text.flatMap String.utf8EncodeChar).take bytes).count 0x0a := by
  induction text generalizing offset bytes with
  | nil => simp [afterNewlines]
  | cons c text ih =>
      have hsize : String.utf8Len [c] = c.utf8Size := by simp
      rw [← List.singleton_append, afterNewlines_append, List.countP_append, countP_afterNewline,
        List.flatMap_append, List.flatMap_singleton, List.take_append, List.count_append,
        String.length_utf8EncodeChar, hsize]
      congr 1
      rcases Nat.lt_or_ge bytes c.utf8Size with hinside | hbehind
      · -- what is behind the character is past the offset
        rw [Nat.sub_eq_zero_of_le (Nat.le_of_lt hinside), List.take_zero, List.count_nil,
          List.countP_eq_zero]
        intro start hstart
        have := (lt_of_mem_afterNewlines hstart).1
        simp only [decide_eq_true_eq]
        omega
      · have hrest := ih (offset + c.utf8Size) (bytes - c.utf8Size)
        rwa [Nat.add_assoc, Nat.add_sub_cancel' hbehind] at hrest

/-- The line of any offset is one more than how many newlines are among the
bytes in front of it. -/
theorem lineOf_eq_newlines (text : String) (offset : Nat) :
    (ofChars text.toList).lineOf offset = 1 + newlinesWithin text offset := by
  have hcount := countP_afterNewlines text.toList 0 offset
  rw [Nat.zero_add] at hcount
  rw [lineOf_eq, hcount, newlinesWithin, ← String.utf8Encode_toList, List.utf8Encode,
    List.toList_data_toByteArray]

/-- An offset has one cut only. -/
theorem Cut.unique {starts : Array Nat} {offset first second : Nat} (hfirst : Cut starts offset first)
    (hsecond : Cut starts offset second) : first = second :=
  hfirst.eq_countP.trans hsecond.eq_countP.symm

/-- The line that is read off a search for an offset among the starts: the
one that begins there, or the one in front of the place at which the offset
would have to be put in. -/
inductive Sought (starts : Array Nat) (offset : Nat) : Nat → Prop
  | found {place : Nat} (h : starts[place]? = some offset) : Sought starts offset (place + 1)
  | missing {place : Nat} (hplace : place ≤ starts.size)
      (hfront : ∀ i < place, starts.getD i 0 < offset)
      (hback : ∀ i, place ≤ i → i < starts.size → offset < starts.getD i 0) :
      Sought starts offset place

theorem Sought.cut {starts : Array Nat} (hordered : starts.toList.Pairwise (· < ·))
    {offset line : Nat} (h : Sought starts offset line) : Cut starts offset line := by
  cases h with
  | @found place hfound =>
      obtain ⟨hplace, hstart⟩ := Array.getElem?_eq_some_iff.1 hfound
      have hget : starts.getD place 0 = offset := by
        rw [Array.getD, dif_pos hplace]
        exact hstart
      refine ⟨hplace, fun i hi => ?_, fun i hi hsize => ?_⟩
      · rw [← hget]
        exact getD_le_of_pairwise hordered (Nat.le_of_lt_succ hi) hplace
      · rw [← hget]
        exact getD_lt_of_pairwise hordered hi hsize
  | missing hplace hfront hback =>
      exact ⟨hplace, fun i hi => Nat.le_of_lt (hfront i hi), hback⟩

/-- A search can answer what it may: where the last line that begins in front
of the offset does not begin at it, the offset would be put in behind that. -/
theorem Cut.sought {starts : Array Nat} (hordered : starts.toList.Pairwise (· < ·))
    {offset line : Nat} (h : Cut starts offset line) : Sought starts offset line := by
  by_cases hfound : ∃ place, line = place + 1 ∧ starts[place]? = some offset
  · obtain ⟨place, rfl, hstart⟩ := hfound
    exact .found hstart
  · refine .missing h.place_le (fun i hi => ?_) h.beyond
    obtain ⟨place, rfl⟩ := Nat.exists_eq_add_one.2 (Nat.zero_lt_of_lt hi)
    have hplace : place < starts.size := h.place_le
    have hle := h.below place (Nat.lt_succ_self place)
    have hne : starts.getD place 0 ≠ offset := by
      intro hstart
      rw [Array.getD, dif_pos hplace] at hstart
      exact hfound ⟨place, rfl, Array.getElem?_eq_some_iff.2 ⟨hplace, hstart⟩⟩
    exact Nat.lt_of_le_of_lt (getD_le_of_pairwise hordered (Nat.le_of_lt_succ hi) hplace)
      (Nat.lt_of_le_of_ne hle hne)

/-- The line of an offset is the one that is read off a search for it. -/
theorem lineOf_eq_iff_sought {text : List Char} {offset line : Nat} :
    (ofChars text).lineOf offset = line ↔ Sought (ofChars text).starts offset line := by
  have hordered := pairwise_afterNewlines text 0
  constructor
  · rintro rfl
    exact (cut_lineOf text offset).sought hordered
  · intro h
    exact (cut_lineOf text offset).unique (h.cut hordered)

-- =========================================================== line starts

theorem one_le_lineOf (text : List Char) (offset : Nat) : 1 ≤ (ofChars text).lineOf offset := by
  rw [lineOf_eq]
  exact Nat.le_add_right _ _

/-- The line of an offset is one of the lines there are. -/
theorem getElem?_lineOf (text : List Char) (offset : Nat) :
    (ofChars text).starts[(ofChars text).lineOf offset - 1]?
      = some ((ofChars text).startOf ((ofChars text).lineOf offset)) := by
  have hline := one_le_lineOf text offset
  have hplace := (cut_lineOf text offset).place_le
  have hlt : (ofChars text).lineOf offset - 1 < (ofChars text).starts.size := by omega
  rw [startOf, Array.getD, dif_pos hlt]
  exact Array.getElem?_eq_getElem hlt

/-- The line of an offset begins in the text, and not behind the offset. -/
theorem startOf_lineOf_le (text : List Char) (offset : Nat) :
    (ofChars text).startOf ((ofChars text).lineOf offset) ≤ min offset (String.utf8Len text) := by
  have hline := one_le_lineOf text offset
  refine Nat.le_min.2 ⟨(cut_lineOf text offset).below _ (by omega), ?_⟩
  have hmem := Array.mem_of_getElem? (getElem?_lineOf text offset)
  rcases List.mem_cons.1 (Array.mem_toList_iff.2 hmem) with hzero | hstart
  · rw [hzero]
    exact Nat.zero_le _
  · have := (lt_of_mem_afterNewlines hstart).2
    rwa [Nat.zero_add] at this

end LineIndex

-- ============================================================= positions

/-- A difference, unless it would be below zero. -/
def difference? (a b : Nat) : Option Nat := if b ≤ a then some (a - b) else none

namespace Source

/-- The position of an offset, given only if each line that is looked up is
there and no difference is below zero. -/
def position? (source : Source) (offset : Nat) : Option Position := do
  let line := source.lineOf offset
  let lineStart ← source.lines.starts[← difference? line 1]?
  let width ← difference? (min offset source.text.utf8ByteSize) lineStart
  let column := (charsIn (dropBytes source.text.toList lineStart) width).getD width
  return ⟨line, column + 1⟩

/-- Every offset has a position. -/
theorem position?_eq (source : Source) (offset : Nat) :
    source.position? offset = some (source.position offset) := by
  have hline : 1 ≤ source.lineOf offset := by
    rw [lineOf, source.lines_eq]
    exact LineIndex.one_le_lineOf _ _
  have hstart : source.lines.starts[source.lineOf offset - 1]?
      = some (source.lines.startOf (source.lineOf offset)) := by
    rw [lineOf, source.lines_eq]
    exact LineIndex.getElem?_lineOf _ _
  have hwidth : source.lines.startOf (source.lineOf offset)
      ≤ min offset source.text.utf8ByteSize := by
    rw [lineOf, source.lines_eq, ← String.utf8Len_toList]
    exact LineIndex.startOf_lineOf_le _ _
  simp only [position?, position, difference?, if_pos hline, hstart, if_pos hwidth,
    Option.bind_eq_bind, Option.bind_some, Option.pure_def]

end Source

/-- What is behind the last newline of a text is its last line. -/
theorem rtakeWhile_lastLine {before line : List Char}
    (hbefore : before = [] ∨ ∃ others, before = others ++ ['\n']) (hline : '\n' ∉ line) :
    (before ++ line).rtakeWhile (· ≠ '\n') = line := by
  have hkept : ∀ c ∈ line.reverse, decide (c ≠ '\n') = true := fun c hc =>
    decide_eq_true fun hnewline => hline (hnewline ▸ List.mem_reverse.1 hc)
  rw [List.rtakeWhile, List.reverse_append, List.takeWhile_append_of_pos hkept,
    List.reverse_append, List.reverse_reverse]
  rcases hbefore with rfl | ⟨others, rfl⟩
  · rfl
  · simp

namespace Source

/-- The column of a place between characters is one more than how many of
them are behind the last newline in front of it. -/
theorem column_eq {source : Source} {front back : String} (h : source.text = front ++ back) :
    (source.position front.utf8ByteSize).column
      = 1 + (front.toList.rtakeWhile (· ≠ '\n')).length := by
  have htext : source.text.toList = front.toList ++ back.toList := by
    rw [h, String.toList_append]
  obtain ⟨before, line, hfront, hline, hbefore⟩ := exists_lastLine front.toList
  rw [← String.utf8Len_toList, position_eq htext, hfront, Cursor.position_lastLine hbefore hline,
    rtakeWhile_lastLine hbefore hline]
  exact Nat.add_comm _ _

/-- What is past the end of a text counts as its end. -/
theorem position_pastEnd {source : Source} {offset : Nat} (h : source.text.utf8ByteSize ≤ offset) :
    source.position offset = source.position source.text.utf8ByteSize := by
  have hall : ∀ bytes, source.text.utf8ByteSize ≤ bytes →
      newlinesWithin source.text bytes = source.text.toByteArray.data.toList.count 0x0a := by
    intro bytes hbytes
    rw [newlinesWithin, List.take_of_length_le]
    simpa using hbytes
  have hline : source.lineOf offset = source.lineOf source.text.utf8ByteSize := by
    rw [lineOf, lineOf, source.lines_eq, LineIndex.lineOf_eq_newlines,
      LineIndex.lineOf_eq_newlines, hall offset h, hall _ (Nat.le_refl _)]
  simp only [position, hline, Nat.min_eq_right h, Nat.min_self]

/-- Where a number of bytes ends inside of a character, no characters make
them up. -/
theorem charsIn_inside {c : Char} {inside : Nat} (hpos : 0 < inside) (hsize : inside < c.utf8Size)
    (front back : List Char) :
    charsIn (front ++ c :: back) (String.utf8Len front + inside) = none := by
  induction front with
  | nil =>
      rw [List.nil_append, String.utf8Len_nil, Nat.zero_add, charsIn_cons hpos,
        if_neg (Nat.not_le.2 hsize)]
  | cons d front ih =>
      have hbytes : String.utf8Len (d :: front) + inside
          = d.utf8Size + (String.utf8Len front + inside) := by
        rw [String.utf8Len_cons]
        omega
      rw [List.cons_append, hbytes, charsIn_cons (by omega), if_pos (Nat.le_add_right _ _),
        Nat.add_sub_cancel_left, ih]
      rfl

/-- Inside of a character the column counts bytes: those of the line in front
of the character, and those of the character itself. -/
theorem position_inside {source : Source} {front back : List Char} {c : Char} {inside : Nat}
    (h : source.text.toList = front ++ c :: back) (hpos : 0 < inside) (hsize : inside < c.utf8Size) :
    source.position (String.utf8Len front + inside)
      = ⟨1 + front.count '\n', 1 + String.utf8Len (front.rtakeWhile (· ≠ '\n')) + inside⟩ := by
  have hc : c ≠ '\n' := by
    rintro rfl
    exact absurd hsize (Nat.not_lt.2 hpos)
  obtain ⟨before, line, rfl, hline, hbefore⟩ := exists_lastLine front
  have hcount : (before ++ line).count '\n' = before.count '\n' := by
    rw [List.count_append, List.count_eq_zero_of_not_mem hline, Nat.add_zero]
  have hlineOf : source.lineOf (String.utf8Len (before ++ line) + inside)
      = 1 + before.count '\n' := by
    rw [lineOf, source.lines_eq, h, ← hcount]
    refine LineIndex.lineOf_behind (Nat.le_add_right _ _) fun start hstart => ?_
    -- no line begins before the character is over
    rw [LineIndex.afterNewlines, if_neg hc] at hstart
    have := (LineIndex.lt_of_mem_afterNewlines hstart).1
    omega
  have hwidth : min (String.utf8Len (before ++ line) + inside) source.text.utf8ByteSize
      = String.utf8Len before + (String.utf8Len line + inside) := by
    rw [← String.utf8Len_toList, h, String.utf8Len_append _ (c :: back), String.utf8Len_cons,
      String.utf8Len_append]
    omega
  rw [List.append_assoc] at h
  rw [hcount, rtakeWhile_lastLine hbefore hline, position_ofLine h hbefore hlineOf hwidth,
    charsIn_inside hpos hsize, Option.getD_none, Nat.add_assoc 1, Nat.add_comm 1 (_ + inside)]

end Source

/-- Lines and columns are exact, and every offset has them. The line of an
offset is one more than how many newlines are among the bytes in front of it.
Its position has that line, and is found without a line that there is not or
a difference below zero. Between characters the column is one more than how
many of them are between the last newline in front of the offset, or the
beginning, and the offset. -/
theorem positions_exact (source : Source) (offset : Nat) :
    source.lineOf offset = 1 + newlinesWithin source.text offset ∧
    source.position? offset = some (source.position offset) ∧
    (source.position offset).line = source.lineOf offset ∧
    ∀ front back : String, source.text = front ++ back → front.utf8ByteSize = offset →
      (source.position offset).column = 1 + (front.toList.rtakeWhile (· ≠ '\n')).length := by
  refine ⟨?_, source.position?_eq offset, rfl, ?_⟩
  · rw [Source.lineOf, source.lines_eq]
    exact LineIndex.lineOf_eq_newlines _ _
  · rintro front back h rfl
    exact Source.column_eq h

/-- A text in which an offset behind a wide character, one inside of it and one
past the end are looked up. -/
theorem positions_exact_accented :
    let source := Source.ofText "a = 1;\nbé = 2;\n\nc"
    source.text = "a = 1;\nbé" ++ " = 2;\n\nc" ∧ "a = 1;\nbé".utf8ByteSize = 10 ∧
    source.position 10 = ⟨2, 3⟩ ∧
    source.lineOf 9 = 2 ∧ source.position? 9 = some (source.position 9) ∧
    source.lineOf 99 = 4 ∧ source.position? 99 = some (source.position 99) := by
  intro source
  have htext : source.text = "a = 1;\nbé" ++ " = 2;\n\nc" := by decide
  have hsize : "a = 1;\nbé".utf8ByteSize = 10 := by decide
  obtain ⟨hline, -, hposition, hcolumn⟩ := positions_exact source 10
  obtain ⟨hinside, hinside?, -⟩ := positions_exact source 9
  obtain ⟨hpast, hpast?, -⟩ := positions_exact source 99
  refine ⟨htext, hsize, ?_, ?_, hinside?, ?_, hpast?⟩
  · have hcounted : 1 + newlinesWithin source.text 10 = 2 := by decide
    have hwide : 1 + ("a = 1;\nbé".toList.rtakeWhile (· ≠ '\n')).length = 3 := by decide
    exact congrArg₂ Position.mk (hposition.trans (hline.trans hcounted))
      ((hcolumn _ _ htext hsize).trans hwide)
  · rw [hinside]
    decide
  · rw [hpast]
    decide

end BoardScript
