/-
Where an offset is. Lines are found by binary search among the offsets at
which they begin, and columns by counting from there; a cursor that has
walked over the text has counted both on the way. The two agree at every
place between characters (`Source.position_eq`): as many lines begin at or
in front of it as there are line ends in front of it and one more
(`lineOf_append`), and the last of them begins where the cursor last went
back to the first column (`exists_lastLine`).
-/
import BoardScript.Proofs.Token.Joined

namespace BoardScript

namespace LineIndex

-- ========================================================== binary search

theorem getD_lt_of_pairwise {starts : Array Nat} (h : starts.toList.Pairwise (· < ·)) {i j : Nat}
    (hij : i < j) (hj : j < starts.size) : starts.getD i 0 < starts.getD j 0 := by
  have hpair := List.pairwise_iff_getElem.1 h i j (by simpa using Nat.lt_trans hij hj)
    (by simpa using hj) hij
  simp only [Array.getElem_toList] at hpair
  simp only [Array.getD, hj, Nat.lt_trans hij hj, dif_pos]
  exact hpair

/-- In what is in order, all up to one that is not beyond an offset are not
beyond it. -/
theorem getD_le_of_pairwise {starts : Array Nat} (h : starts.toList.Pairwise (· < ·)) {i j : Nat}
    (hij : i ≤ j) (hj : j < starts.size) : starts.getD i 0 ≤ starts.getD j 0 := by
  rcases Nat.eq_or_lt_of_le hij with rfl | hlt
  · exact Nat.le_refl _
  · exact Nat.le_of_lt (getD_lt_of_pairwise h hlt hj)

/-- What separates the starts that are not beyond an offset from those that
are. -/
structure Cut (starts : Array Nat) (offset place : Nat) : Prop where
  place_le : place ≤ starts.size
  below : ∀ i < place, starts.getD i 0 ≤ offset
  beyond : ∀ i, place ≤ i → i < starts.size → offset < starts.getD i 0

/-- The search ends at the cut, if it begins around it. -/
theorem cut_firstBeyond {starts : Array Nat} (h : starts.toList.Pairwise (· < ·))
    {offset lo hi : Nat} (hle : lo ≤ hi) (hhi : hi ≤ starts.size)
    (hbelow : ∀ i < lo, starts.getD i 0 ≤ offset)
    (hbeyond : ∀ i, hi ≤ i → i < starts.size → offset < starts.getD i 0) :
    Cut starts offset (firstBeyond starts offset lo hi) := by
  fun_induction firstBeyond starts offset lo hi with
  | case1 lo hi hlt mid hmid ih =>
      refine ih (by omega) hhi (fun i hi => ?_) hbeyond
      exact Nat.le_trans (getD_le_of_pairwise h (Nat.le_of_lt_succ hi) (by omega)) hmid
  | case2 lo hi hlt mid hmid ih =>
      refine ih (by omega) (by omega) hbelow fun i hi hsize => ?_
      exact Nat.lt_of_lt_of_le (Nat.lt_of_not_le hmid) (getD_le_of_pairwise h hi hsize)
  | case3 lo hi hlt =>
      obtain rfl : lo = hi := by omega
      exact ⟨hhi, hbelow, hbeyond⟩

/-- A cut is found by counting. -/
theorem Cut.eq_countP {starts : Array Nat} {offset place : Nat} (h : Cut starts offset place) :
    place = starts.toList.countP (· ≤ offset) := by
  have hfront : (starts.toList.take place).countP (· ≤ offset) = place := by
    rw [List.countP_eq_length.2, List.length_take_of_le (by simpa using h.place_le)]
    intro start hmem
    obtain ⟨i, hi, rfl⟩ := List.mem_take_iff_getElem.1 hmem
    have hplace : i < place := Nat.lt_of_lt_of_le hi (Nat.min_le_left _ _)
    have := h.below i hplace
    simpa [Array.getD, Nat.lt_of_lt_of_le hplace h.place_le] using this
  have hback : (starts.toList.drop place).countP (· ≤ offset) = 0 := by
    rw [List.countP_eq_zero]
    intro start hmem
    obtain ⟨i, hi, rfl⟩ := List.mem_drop_iff_getElem.1 hmem
    have hsize : place + i < starts.size := by simpa [Nat.add_comm] using hi
    have := h.beyond (place + i) (Nat.le_add_right _ _) hsize
    simpa [Array.getD, hsize] using this
  conv_rhs => rw [← List.take_append_drop place starts.toList, List.countP_append, hfront, hback]
  rfl

-- ============================================================ line starts

theorem lt_of_mem_afterNewlines {text : List Char} {offset start : Nat}
    (h : start ∈ afterNewlines text offset) :
    offset < start ∧ start ≤ offset + String.utf8Len text := by
  induction text generalizing offset with
  | nil => cases h
  | cons c text ih =>
      have hpos := c.utf8Size_pos
      rw [afterNewlines] at h
      rw [String.utf8Len_cons]
      split at h
      · rcases List.mem_cons.1 h with rfl | h
        · omega
        · have := ih h
          omega
      · have := ih h
        omega

theorem pairwise_afterNewlines (text : List Char) (offset : Nat) :
    (offset :: afterNewlines text offset).Pairwise (· < ·) := by
  refine List.pairwise_cons.2 ⟨fun start h => (lt_of_mem_afterNewlines h).1, ?_⟩
  induction text generalizing offset with
  | nil => exact .nil
  | cons c text ih =>
      rw [afterNewlines]
      split
      · exact List.pairwise_cons.2 ⟨fun start h => (lt_of_mem_afterNewlines h).1, ih _⟩
      · exact ih _

theorem afterNewlines_append (front back : List Char) (offset : Nat) :
    afterNewlines (front ++ back) offset
      = afterNewlines front offset ++ afterNewlines back (offset + String.utf8Len front) := by
  induction front generalizing offset with
  | nil => rfl
  | cons c front ih =>
      rw [List.cons_append, afterNewlines, afterNewlines, ih, String.utf8Len_cons,
        Nat.add_comm (String.utf8Len front), ← Nat.add_assoc]
      split <;> rfl

theorem length_afterNewlines (text : List Char) (offset : Nat) :
    (afterNewlines text offset).length = text.count '\n' := by
  induction text generalizing offset with
  | nil => rfl
  | cons c text ih =>
      rw [afterNewlines, List.count_cons]
      split <;> rename_i h <;> simp [h, ih]

/-- The line of an offset is how many lines begin at or in front of it. -/
theorem cut_lineOf (text : List Char) (offset : Nat) :
    Cut (ofChars text).starts offset ((ofChars text).lineOf offset) :=
  cut_firstBeyond (pairwise_afterNewlines text 0) (Nat.zero_le _) (Nat.le_refl _)
    (fun i hi => absurd hi (Nat.not_lt_zero i)) (fun _ hi hsize => absurd hsize (Nat.not_lt.2 hi))

/-- The line of an offset is one more than how many lines begin behind a
line end at or in front of it. -/
theorem lineOf_eq (text : List Char) (offset : Nat) :
    (ofChars text).lineOf offset = 1 + (afterNewlines text 0).countP (· ≤ offset) := by
  rw [(cut_lineOf text offset).eq_countP, ofChars, List.countP_cons_of_pos (by simp), Nat.add_comm]

/-- The line of an offset is one more than how many line ends are in front
of it. -/
theorem lineOf_behind {front back : List Char} {offset : Nat} (hfront : String.utf8Len front ≤ offset)
    (hback : ∀ start ∈ afterNewlines back (String.utf8Len front), offset < start) :
    (ofChars (front ++ back)).lineOf offset = 1 + front.count '\n' := by
  have hcounted : (afterNewlines front 0).countP (· ≤ offset) = front.count '\n' := by
    rw [List.countP_eq_length.2, length_afterNewlines]
    intro start h
    have := (lt_of_mem_afterNewlines h).2
    simp only [decide_eq_true_eq]
    omega
  have hnone : (afterNewlines back (0 + String.utf8Len front)).countP (· ≤ offset) = 0 := by
    rw [Nat.zero_add, List.countP_eq_zero]
    intro start h
    simpa using hback start h
  rw [lineOf_eq, afterNewlines_append, List.countP_append, hcounted, hnone, Nat.add_zero]

/-- The line of a place between characters. -/
theorem lineOf_append (front back : List Char) :
    (ofChars (front ++ back)).lineOf (String.utf8Len front) = 1 + front.count '\n' :=
  lineOf_behind (Nat.le_refl _) fun _ h => (lt_of_mem_afterNewlines h).1

end LineIndex

-- ================================================================= cursors

namespace Cursor

theorem line_advanceAll (text : List Char) (cursor : Cursor) :
    (cursor.advanceAll text).position.line = cursor.position.line + text.count '\n' := by
  induction text generalizing cursor with
  | nil => rfl
  | cons c text ih =>
      show ((cursor.advance c).advanceAll text).position.line = _
      rw [ih, List.count_cons, advance]
      split
      · rename_i h
        simp [h]
        omega
      · rename_i h
        simp [h]

/-- Within a line only the column moves. -/
theorem column_advanceAll {line : List Char} (h : '\n' ∉ line) (cursor : Cursor) :
    (cursor.advanceAll line).position.column = cursor.position.column + line.length := by
  induction line generalizing cursor with
  | nil => rfl
  | cons c line ih =>
      obtain ⟨hc, hline⟩ := List.ne_and_not_mem_of_not_mem_cons h
      show ((cursor.advance c).advanceAll line).position.column = _
      rw [ih hline, advance, if_neg (Ne.symm hc), List.length_cons, Nat.add_comm line.length,
        ← Nat.add_assoc]

end Cursor

/-- A text ends in the middle of a line, which begins behind a line end or
with the text. -/
theorem exists_lastLine (text : List Char) :
    ∃ before line, text = before ++ line ∧ '\n' ∉ line ∧
      (before = [] ∨ ∃ others, before = others ++ ['\n']) := by
  induction text with
  | nil => exact ⟨[], [], rfl, List.not_mem_nil, .inl rfl⟩
  | cons c text ih =>
      obtain ⟨before, line, rfl, hline, rfl | ⟨others, rfl⟩⟩ := ih
      · by_cases hc : c = '\n'
        · exact ⟨['\n'], line, by rw [hc]; rfl, hline, .inr ⟨[], rfl⟩⟩
        · exact ⟨[], c :: line, rfl, by simpa [hline] using Ne.symm hc, .inl rfl⟩
      · exact ⟨c :: others ++ ['\n'], line, by simp, hline, .inr ⟨c :: others, rfl⟩⟩

/-- A cursor that has walked over a text stands behind the characters of the
last line. -/
theorem Cursor.position_lastLine {before line : List Char}
    (hbefore : before = [] ∨ ∃ others, before = others ++ ['\n']) (hline : '\n' ∉ line) :
    (start.advanceAll (before ++ line)).position = ⟨1 + before.count '\n', line.length + 1⟩ := by
  -- the cursor is in the first column where the last line begins
  have hcolumn : (start.advanceAll before).position.column = 1 := by
    rcases hbefore with rfl | ⟨others, rfl⟩
    · rfl
    · rw [advanceAll_append]
      rfl
  have hline' := line_advanceAll (before ++ line) start
  rw [List.count_append, List.count_eq_zero_of_not_mem hline, Nat.add_zero] at hline'
  have hcolumn' := column_advanceAll hline (start.advanceAll before)
  rw [← advanceAll_append, hcolumn, Nat.add_comm] at hcolumn'
  exact congrArg₂ Position.mk hline' hcolumn'

-- =============================================================== positions

theorem dropBytes_append (front back : List Char) :
    dropBytes (front ++ back) (String.utf8Len front) = back := by
  induction front with
  | nil => cases back <;> rfl
  | cons c front ih =>
      have hpos := c.utf8Size_pos
      rw [String.utf8Len_cons, List.cons_append]
      obtain ⟨count, hcount⟩ := Nat.exists_eq_add_one.2 (Nat.add_pos_right (String.utf8Len front) hpos)
      rw [hcount, dropBytes, ← hcount, Nat.add_sub_cancel]
      · exact ih
      · exact nofun

theorem charsIn_cons {bytes : Nat} (h : 0 < bytes) (c : Char) (rest : List Char) :
    charsIn (c :: rest) bytes
      = if c.utf8Size ≤ bytes then (charsIn rest (bytes - c.utf8Size)).map (· + 1) else none := by
  obtain ⟨count, rfl⟩ := Nat.exists_eq_add_one.2 h
  rw [charsIn]
  exact nofun

theorem charsIn_append (front back : List Char) :
    charsIn (front ++ back) (String.utf8Len front) = some front.length := by
  induction front with
  | nil => cases back <;> rfl
  | cons c front ih =>
      have hpos := c.utf8Size_pos
      rw [String.utf8Len_cons, List.cons_append, charsIn_cons (Nat.add_pos_right _ hpos),
        if_pos (Nat.le_add_left _ _), Nat.add_sub_cancel, ih]
      rfl

/-- The start of the line in which a text ends. -/
theorem LineIndex.startOf_append {before : List Char}
    (h : before = [] ∨ ∃ others, before = others ++ ['\n']) (back : List Char) :
    (ofChars (before ++ back)).startOf (1 + before.count '\n') = String.utf8Len before := by
  rw [startOf, Nat.add_sub_cancel_left, ofChars, afterNewlines_append]
  rcases h with rfl | ⟨others, rfl⟩
  · rfl
  · have hlast : afterNewlines (others ++ ['\n']) 0
        = afterNewlines others 0 ++ [String.utf8Len (others ++ ['\n'])] := by
      rw [afterNewlines_append, String.utf8Len_append]
      simp [afterNewlines]
    rw [hlast, List.count_append, List.count_singleton_self, List.append_assoc]
    simp [length_afterNewlines]

/-- The position of an offset, from where its line begins and how far behind
that it is. -/
theorem Source.position_ofLine {source : Source} {before back : List Char} {offset width : Nat}
    (h : source.text.toList = before ++ back)
    (hbefore : before = [] ∨ ∃ others, before = others ++ ['\n'])
    (hline : source.lineOf offset = 1 + before.count '\n')
    (hwidth : min offset source.text.utf8ByteSize = String.utf8Len before + width) :
    source.position offset = ⟨1 + before.count '\n', (charsIn back width).getD width + 1⟩ := by
  have hstart : source.lines.startOf (1 + before.count '\n') = String.utf8Len before := by
    rw [source.lines_eq, h, LineIndex.startOf_append hbefore]
  rw [position, hline]
  simp only [hstart, hwidth, Nat.add_sub_cancel_left, h, dropBytes_append]

/-- The position of a place between characters is that of a cursor that has
walked there. -/
theorem Source.position_eq {source : Source} {front back : List Char}
    (h : source.text.toList = front ++ back) :
    source.position (String.utf8Len front) = (Cursor.start.advanceAll front).position := by
  obtain ⟨before, line, rfl, hline, hbefore⟩ := exists_lastLine front
  have hlineOf : source.lineOf (String.utf8Len (before ++ line)) = 1 + before.count '\n' := by
    rw [lineOf, source.lines_eq, h, LineIndex.lineOf_append, List.count_append,
      List.count_eq_zero_of_not_mem hline, Nat.add_zero]
  have hwidth : min (String.utf8Len (before ++ line)) source.text.utf8ByteSize
      = String.utf8Len before + String.utf8Len line := by
    rw [← String.utf8Len_toList, h, String.utf8Len_append _ back,
      Nat.min_eq_left (Nat.le_add_right _ _), String.utf8Len_append]
  rw [List.append_assoc] at h
  rw [Cursor.position_lastLine hbefore hline, position_ofLine h hbefore hlineOf hwidth,
    charsIn_append, Option.getD_some]

end BoardScript
