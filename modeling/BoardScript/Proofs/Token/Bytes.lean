/-
The scanner reads bytes, and it cuts whole characters. The state of the
automaton on bytes behind a character is that of the automaton on characters,
with the place in the tree of the reserved words that the text so far leads to
(`LexState.of`). In the midst of a character it is in a string or stands
still, so it never accepts there: a piece ends between characters, and what is
cut off is the cut of the characters (`nextPiece?_eq`).

So no slice fails and no piece is without bytes, and the tokens of the scanner
are those of the cursor that walks over the characters (`Scanner.tokens?_eq`).
-/
import BoardScript.Proofs.Text.Position
import BoardScript.Proofs.Token.Keyword

namespace BoardScript

-- =================================================================== bytes

/-- The bytes of some characters. -/
def encoded (text : List Char) : List UInt8 := text.flatMap String.utf8EncodeChar

theorem encoded_cons (c : Char) (text : List Char) :
    encoded (c :: text) = String.utf8EncodeChar c ++ encoded text := rfl

theorem encoded_concat (text : List Char) (c : Char) :
    encoded (text ++ [c]) = encoded text ++ String.utf8EncodeChar c := by
  simp [encoded]

theorem encoded_append (front back : List Char) :
    encoded (front ++ back) = encoded front ++ encoded back := List.flatMap_append

theorem length_encoded (text : List Char) : (encoded text).length = String.utf8Len text := by
  induction text with
  | nil => rfl
  | cons c text ih =>
      rw [encoded_cons, List.length_append, String.length_utf8EncodeChar, ih, String.utf8Len_cons,
        Nat.add_comm]

theorem bytesOf_eq (text : String) : KeywordTree.bytesOf text = encoded text.toList := by
  rw [KeywordTree.bytesOf, ← String.utf8Encode_toList, List.utf8Encode,
    List.toList_data_toByteArray, encoded]

/-- A character of one byte is that byte. -/
theorem ofUInt8_narrow {c : Char} (h : c.utf8Size = 1) :
    String.utf8EncodeChar c = [c.val.toUInt8] ∧ Char.ofUInt8 c.val.toUInt8 = c := by
  refine ⟨String.utf8EncodeChar_eq_singleton h, Char.ext (UInt32.toNat_inj.1 ?_)⟩
  have hval : c.val.toNat ≤ 127 := Char.utf8Size_eq_one_iff.1 h
  show c.val.toUInt8.toUInt32.toNat = _
  rw [UInt8.toNat_toUInt32, UInt32.toNat_toUInt8]
  omega

/-- All bytes of the other characters are beyond those. -/
theorem wide_of_mem {c : Char} {byte : UInt8} (h : c.utf8Size ≠ 1)
    (hmem : byte ∈ String.utf8EncodeChar c) : 0x80 ≤ byte.toNat := by
  have hwide : ∀ {value : Nat}, 0x80 ≤ value → value < 2 ^ 8 → byte = .ofNat value →
      0x80 ≤ byte.toNat := by
    intro value hlow hhigh hbyte
    rw [hbyte, UInt8.toNat_ofNat', Nat.mod_eq_of_lt hhigh]
    exact hlow
  revert hmem h
  fun_cases String.utf8EncodeChar c with
  | case1 v hv =>
      exact fun h _ => absurd (Char.utf8Size_eq_one_iff.2 (UInt32.le_iff_toNat_le.2 hv)) h
  | case2 v =>
      simp only [List.mem_cons, List.not_mem_nil, or_false]
      rintro - (h | h) <;> exact hwide (by omega) (by omega) h
  | case3 v =>
      simp only [List.mem_cons, List.not_mem_nil, or_false]
      rintro - (h | h | h) <;> exact hwide (by omega) (by omega) h
  | case4 v =>
      simp only [List.mem_cons, List.not_mem_nil, or_false]
      rintro - (h | h | h | h) <;> exact hwide (by omega) (by omega) h

/-- What is beyond the characters of one byte is of no class. -/
theorem classes_wide {c : Char} (h : 0x80 ≤ c.val.toNat) :
    (isSpace c = false ∧ isWordPart c = false ∧ beginsPair c = false ∧
      operatorOf c = none ∧ ∀ first, operatorOfPair first c = none) ∧
      c ≠ '.' ∧ c ≠ '\x27' ∧ c ≠ '\x5c' ∧ c ≠ 'e' ∧ c ≠ 'E' ∧ c ≠ '+' ∧ c ≠ '-' := by
  have hne : ∀ d : Char, d.val.toNat < 0x80 → c ≠ d := by
    rintro d hd rfl
    exact absurd h (Nat.not_le.2 hd)
  refine ⟨⟨?_, ?_, ?_, ?_, ?_⟩, hne _ (by decide), hne _ (by decide), hne _ (by decide),
    hne _ (by decide), hne _ (by decide), hne _ (by decide), hne _ (by decide)⟩
  · refine Bool.eq_false_iff.2 fun hspace => ?_
    simp only [isSpace, Bool.or_eq_true, decide_eq_true_eq] at hspace
    rcases hspace with ((((rfl | rfl) | rfl) | rfl) | rfl) | rfl <;> exact absurd h (by decide)
  · refine Bool.eq_false_iff.2 fun hpart => ?_
    simp only [isWordPart, isWordStart, isAlpha_eq, Char.isDigit, Bool.or_eq_true, Bool.and_eq_true, decide_eq_true_eq, UInt32.le_iff_toNat_le, ge_iff_le] at hpart
    rcases hpart with (((⟨-, hlast⟩ | ⟨-, hlast⟩) | rfl) | rfl) | ⟨-, hlast⟩
    · exact absurd (h.trans hlast) (by decide)
    · exact absurd (h.trans hlast) (by decide)
    · exact absurd h (by decide)
    · exact absurd h (by decide)
    · exact absurd (h.trans hlast) (by decide)
  · refine Bool.eq_false_iff.2 fun hpair => ?_
    simp only [beginsPair, Bool.or_eq_true, decide_eq_true_eq] at hpair
    rcases hpair with ((((((rfl | rfl) | rfl) | rfl) | rfl) | rfl) | rfl) | rfl <;>
      exact absurd h (by decide)
  · unfold operatorOf
    split <;> first | rfl | exact absurd h (by decide)
  · intro first
    unfold operatorOfPair
    split <;> first | rfl | exact absurd h (by decide)

-- ================================================================== moves

/-- Beyond the characters of one byte the automaton goes on in strings only. -/
theorem Reading.step_wide {c : Char} (h : 0x80 ≤ c.val.toNat) (reading : Reading) :
    reading.step c =
      if reading = .stringBody ∨ reading = .stringEscape then some .stringBody else none := by
  obtain ⟨⟨hspace, hpart, hpair, hoperator, hsecond⟩, hothers⟩ := classes_wide h
  obtain ⟨hword, hdigit⟩ := Bool.or_eq_false_iff.1 hpart
  cases reading <;>
    simp [step, hspace, hpart, hword, hdigit, hpair, hoperator, hsecond, hothers]

theorem LexState.step_wide {byte : UInt8} (h : 0x80 ≤ byte.toNat) (state : LexState) :
    state.step byte =
      if state = .stringBody ∨ state = .stringEscape then some .stringBody else none := by
  have hc : 0x80 ≤ (Char.ofUInt8 byte).val.toNat := by
    show 0x80 ≤ byte.toUInt32.toNat
    rwa [UInt8.toNat_toUInt32]
  obtain ⟨⟨hspace, hpart, hpair, hoperator, hsecond⟩, hothers⟩ := classes_wide hc
  obtain ⟨hword, hdigit⟩ := Bool.or_eq_false_iff.1 hpart
  cases state <;>
    simp [step, hspace, hpart, hword, hdigit, hpair, hoperator, hsecond, hothers]

/-- The state of the automaton on bytes, where that on characters is in a
state and has read a text. -/
def LexState.of (text : List Char) : Reading → LexState
  | .start => .start
  | .whitespace => .whitespace
  | .word => .word (keywordTree.walk keywordTree.root (encoded text))
  | .integer => .integer
  | .integerDot => .integerDot
  | .leadingDot => .leadingDot
  | .fraction => .fraction
  | .exponentMark => .exponentMark
  | .exponentSign => .exponentSign
  | .exponent => .exponent
  | .stringBody => .stringBody
  | .stringEscape => .stringEscape
  | .stringClosed => .stringClosed
  | .opening first => .opening first.val.toUInt8
  | .operator kind => .operator kind

/-- An operator is begun only by what begins operators of two characters. -/
theorem Reading.beginsPair_of_after {first : Char} {text : List Char} {reading : Reading}
    (h : reading.after text = some (.opening first)) :
    reading = .opening first ∨ beginsPair first = true := by
  induction text generalizing reading with
  | nil => exact .inl (Option.some.inj h)
  | cons c text ih =>
      obtain ⟨next, hstep, hrest⟩ := Option.bind_eq_some_iff.1 h
      rcases ih hrest with rfl | hpair
      · right
        cases reading with
        | start =>
            simp only [step] at hstep
            iterate 5 (split at hstep; · cases hstep)
            split at hstep
            · rename_i hpair
              cases hstep
              exact hpair
            · obtain ⟨kind, -, h⟩ := Option.map_eq_some_iff.1 hstep
              cases h
        | opening other =>
            obtain ⟨kind, -, h⟩ := Option.map_eq_some_iff.1 hstep
            cases h
        | _ =>
            simp only [step] at hstep
            repeat' split at hstep
            all_goals cases hstep
      · exact .inr hpair

theorem Reading.narrow_of_opening {first : Char} {text : List Char}
    (h : Reading.start.after text = some (.opening first)) : first.utf8Size = 1 := by
  have hpair := (beginsPair_of_after h).resolve_left nofun
  refine Char.utf8Size_eq_one_iff.2 (UInt32.le_iff_toNat_le.2 (Nat.le_of_lt_succ ?_))
  refine Nat.lt_of_not_le fun hwide => ?_
  cases hpair.symm.trans (classes_wide hwide).1.2.2.1

theorem Reading.eq_nil_of_start {text : List Char} (h : Reading.start.after text = some .start) :
    text = [] := by
  cases text with
  | nil => rfl
  | cons c text =>
      obtain ⟨next, hstep, hrest⟩ := Option.bind_eq_some_iff.1 h
      exact absurd (start_ne_after hrest) (step_cases hstep).1

/-- On a character of one byte both move alike. -/
theorem LexState.step_narrow {c : Char} (hc : c.utf8Size = 1) {text : List Char} {reading : Reading}
    (hread : Reading.start.after text = some reading) :
    (LexState.of text reading).step c.val.toUInt8 = (reading.step c).map (LexState.of (text ++ [c])) := by
  obtain ⟨hbytes, hbyte⟩ := ofUInt8_narrow hc
  have hwalk : keywordTree.walk keywordTree.root (encoded (text ++ [c]))
      = (keywordTree.walk keywordTree.root (encoded text)).bind
        (keywordTree.child · c.val.toUInt8) := by
    rw [encoded_concat, hbytes, KeywordTree.walk_concat]
  cases reading with
  | start =>
      obtain rfl := Reading.eq_nil_of_start hread
      simp only [LexState.of, step, Reading.step, hbyte]
      repeat' split
      any_goals rfl
      · exact congrArg (some ∘ LexState.word) hwalk.symm
      · cases operatorOf c <;> rfl
  | word =>
      simp only [LexState.of, step, Reading.step, hbyte]
      split
      · exact congrArg (some ∘ LexState.word) hwalk.symm
      · rfl
  | opening first =>
      have hfirst := (ofUInt8_narrow (Reading.narrow_of_opening hread)).2
      simp only [LexState.of, step, Reading.step, hbyte, hfirst, Option.map_map]
      rfl
  | _ =>
      simp only [LexState.of, step, Reading.step, hbyte]
      repeat' split
      all_goals rfl

/-- Both accept alike: the tree says at the end of a word what the list of
the reserved words says of it. -/
theorem LexState.accepts_of {text : List Char} {reading : Reading}
    (hread : Reading.start.after text = some reading) :
    (LexState.of text reading).accepts = reading.kindOf text := by
  cases reading with
  | word =>
      have hword : (keywordTree.wordAt (encoded text)).getD .identifier
          = TokenKind.ofWord (String.ofList text) := by
        have hbytes := bytesOf_eq (String.ofList text)
        rw [String.toList_ofList] at hbytes
        rw [← hbytes, keywordTree, KeywordTree.wordAt_ofList, TokenKind.lookup_reverse_keywords,
          TokenKind.ofWord]
      rw [KeywordTree.wordAt] at hword
      rw [Reading.kindOf, LexState.of]
      cases hwalk : keywordTree.walk keywordTree.root (encoded text) with
      | none =>
          rw [hwalk] at hword
          simp [accepts, Reading.accepts, ← hword]
      | some node =>
          rw [hwalk] at hword
          simp [accepts, Reading.accepts, ← hword]
  | opening first =>
      have hfirst := (ofUInt8_narrow (Reading.narrow_of_opening hread)).2
      rw [LexState.of, accepts, hfirst]
      cases hoperator : operatorOf first with
      | none => simp [Reading.kindOf, Reading.accepts, hoperator]
      | some kind =>
          have haccepts : (Reading.opening first).accepts = some kind := hoperator
          exact (Reading.kindOf_operator haccepts (isFree_operatorOf hoperator)).symm
  | operator kind =>
      have hfree := (Reading.after_operator hread).resolve_left (by simp)
      exact (Reading.kindOf_operator rfl hfree).symm
  | _ => rfl

-- ============================================================ longest match

namespace LexState

/-- What the automaton finds in some bytes that stand at `cursor`. -/
def upTo (state : LexState) (cursor : Nat) (last : Option (TokenKind × Nat)) :
    List UInt8 → Option (TokenKind × Nat)
  | [] => last
  | byte :: rest =>
      match state.step byte with
      | none => last
      | some next =>
          next.upTo (cursor + 1) (next.accepts.elim last fun kind => some (kind, cursor + 1)) rest

theorem longest_eq (state : LexState) (bytes : ByteArray) (cursor : Nat)
    (last : Option (TokenKind × Nat)) :
    state.longest bytes cursor last = state.upTo cursor last (bytes.data.toList.drop cursor) := by
  have hdrop : ∀ {cursor} (h : cursor < bytes.size), bytes.data.toList.drop cursor
      = bytes[cursor] :: bytes.data.toList.drop (cursor + 1) := fun h =>
    List.drop_eq_getElem_cons h
  fun_induction longest state bytes cursor last with
  | case1 state cursor last h hstep => rw [hdrop h, upTo, hstep]
  | case2 state cursor last h next hstep behind ih =>
      rw [ih, hdrop h, upTo, hstep]
      cases haccepts : next.accepts <;> simp [behind, haccepts]
  | case3 state cursor last h =>
      rw [List.drop_of_length_le (Nat.le_of_not_lt h)]
      rfl

/-- A string goes on over all bytes beyond the characters of one byte. -/
theorem upTo_stringBody {bytes : List UInt8} (h : ∀ byte ∈ bytes, 0x80 ≤ byte.toNat)
    (cursor : Nat) (last : Option (TokenKind × Nat)) (rest : List UInt8) :
    stringBody.upTo cursor last (bytes ++ rest) = stringBody.upTo (cursor + bytes.length) last rest := by
  induction bytes generalizing cursor with
  | nil => rfl
  | cons byte bytes ih =>
      obtain ⟨hbyte, hbytes⟩ := List.forall_mem_cons.1 h
      rw [List.cons_append, upTo, step_wide hbyte, if_pos (.inl rfl)]
      simp only [accepts, Option.elim_none]
      rw [ih hbytes, List.length_cons, Nat.add_assoc, Nat.add_comm 1]

/-- A whole character is read as such. -/
theorem upTo_char {text : List Char} {reading : Reading}
    (hread : Reading.start.after text = some reading) (c : Char) (cursor : Nat)
    (last : Option (TokenKind × Nat)) (rest : List UInt8) :
    (LexState.of text reading).upTo cursor last (String.utf8EncodeChar c ++ rest) =
      match reading.step c with
      | none => last
      | some next =>
          (LexState.of (text ++ [c]) next).upTo (cursor + c.utf8Size)
            ((next.kindOf (text ++ [c])).elim last fun kind => some (kind, cursor + c.utf8Size)) rest := by
  have hafter : ∀ {next}, reading.step c = some next →
      Reading.start.after (text ++ [c]) = some next := by
    intro next hstep
    rw [Reading.after_append hread, Reading.after, hstep]
    rfl
  by_cases hc : c.utf8Size = 1
  · rw [(ofUInt8_narrow hc).1, List.singleton_append, upTo, step_narrow hc hread]
    cases hstep : reading.step c with
    | none => rfl
    | some next => simp only [Option.map_some, hc, ← accepts_of (hafter hstep)]
  · have hwide : ∀ byte ∈ String.utf8EncodeChar c, 0x80 ≤ byte.toNat := fun _ => wide_of_mem hc
    have hval : 0x80 ≤ c.val.toNat := Nat.lt_of_not_le fun h =>
      hc (Char.utf8Size_eq_one_iff.2 (UInt32.le_iff_toNat_le.2 h))
    have hlength := String.length_utf8EncodeChar c
    rw [Reading.step_wide hval]
    cases hbytes : String.utf8EncodeChar c with
    | nil => exact absurd hbytes String.utf8EncodeChar_ne_nil
    | cons byte bytes =>
        rw [hbytes] at hwide hlength
        obtain ⟨hbyte, hmore⟩ := List.forall_mem_cons.1 hwide
        rw [List.cons_append, upTo, step_wide hbyte]
        by_cases hstring : reading = .stringBody ∨ reading = .stringEscape
        · have hstate : LexState.of text reading = .stringBody ∨
              LexState.of text reading = .stringEscape :=
            hstring.imp (congrArg (LexState.of text)) (congrArg (LexState.of text))
          rw [if_pos hstring, if_pos hstate, ← hlength, List.length_cons, Nat.add_comm bytes.length,
            ← Nat.add_assoc]
          exact upTo_stringBody hmore _ _ _
        · have hstate : ¬ (LexState.of text reading = .stringBody ∨
              LexState.of text reading = .stringEscape) := by
            cases reading <;> simp [LexState.of] at hstring ⊢
          rw [if_neg hstring, if_neg hstate]

/-- A token that ends so many characters behind the start of a text that
stands at an offset, by its offset and with the kind of its word. -/
def placed (offset : Nat) (text : List Char) (found : TokenKind × Nat) : TokenKind × Nat :=
  (if found.1 = .identifier then .ofWord (String.ofList (text.take found.2)) else found.1,
    offset + String.utf8Len (text.take found.2))

/-- The automaton on bytes finds what that on characters finds. -/
theorem upTo_eq (offset : Nat) {text rest : List Char} {reading : Reading}
    (hread : Reading.start.after text = some reading) (best : Option (TokenKind × Nat)) :
    (LexState.of text reading).upTo (offset + String.utf8Len text)
        (best.map (placed offset (text ++ rest))) (encoded rest) =
      (reading.longest text.length best rest).map (placed offset (text ++ rest)) := by
  induction rest generalizing text reading best with
  | nil => rfl
  | cons c rest ih =>
      have hwhole : text ++ c :: rest = (text ++ [c]) ++ rest := by simp
      have hlength : (text ++ [c]).length = text.length + 1 := by simp
      rw [encoded_cons, upTo_char hread, Reading.longest]
      cases hstep : reading.step c with
      | none => rfl
      | some next =>
          have hafter : Reading.start.after (text ++ [c]) = some next := by
            rw [Reading.after_append hread, Reading.after, hstep]
            rfl
          have hbytes : offset + String.utf8Len text + c.utf8Size
              = offset + String.utf8Len (text ++ [c]) := by
            rw [String.utf8Len_append, String.utf8Len_cons, String.utf8Len_nil, Nat.zero_add,
              Nat.add_assoc]
          rw [hwhole, hbytes, ← hlength, ← ih hafter]
          have htake : (text ++ [c] ++ rest).take (text ++ [c]).length = text ++ [c] := List.take_left
          cases haccepts : next.accepts with
          | none => simp only [Reading.kindOf, haccepts, Option.map_none, Option.elim_none]
          | some kind =>
              simp only [Reading.kindOf, haccepts, Option.map_some, Option.elim_some, placed, htake]

end LexState

-- ================================================================= pieces

namespace Token

theorem size_ofList (cs : List Char) : (String.ofList cs).toByteArray.size = String.utf8Len cs := by
  rw [String.size_toByteArray, ← String.utf8Len_toList, String.toList_ofList]

/-- Behind the first characters of a text there is a place between characters. -/
theorem isValid_utf8Len {text : String} {front back : List Char}
    (h : text.toList = front ++ back) : String.Pos.Raw.IsValid text ⟨String.utf8Len front⟩ := by
  refine String.Pos.Raw.isValid_iff_exists_append.2
    ⟨String.ofList front, String.ofList back, ?_, ?_⟩
  · rw [← String.ofList_append, ← h, String.ofList_toList]
  · rw [← size_ofList, String.size_toByteArray]
    rfl

/-- The bytes between two such places are those of the characters between
them. -/
theorem extract_utf8Len {text : String} {front middle back : List Char}
    (h : text.toList = front ++ (middle ++ back)) :
    text.toByteArray.extract (String.utf8Len front) (String.utf8Len (front ++ middle))
      = (String.ofList middle).toByteArray := by
  rw [← String.ofList_toList (s := text), h, String.utf8Len_append, ← size_ofList, ← size_ofList middle,
    String.ofList_append, String.ofList_append, String.toByteArray_append]
  refine (ByteArray.extract_append_size_add (i := 0)).trans ?_
  rw [String.toByteArray_append, ByteArray.extract_append_eq_left rfl]

end Token

/-- Between characters every slice can be cut out. -/
theorem slice?_eq {text : String} {front middle back : List Char}
    (h : text.toList = front ++ (middle ++ back)) :
    slice? text (String.utf8Len front) (String.utf8Len front + String.utf8Len middle)
      = some (String.ofList middle) := by
  have hstop := Token.isValid_utf8Len (h.trans (List.append_assoc front middle back).symm)
  have hbytes := Token.extract_utf8Len h
  rw [String.utf8Len_append] at hstop hbytes
  rw [slice?, dif_pos ⟨Nat.le_add_right _ _, Token.isValid_utf8Len h, hstop⟩]
  exact congrArg some (String.toByteArray_inj.1 hbytes)

/-- Where a text goes on with a character, what is cut off its bytes is what
is cut off its characters. -/
theorem nextPiece?_eq {text : String} {front rest : List Char} {c : Char}
    (h : text.toList = front ++ c :: rest) :
    nextPiece? text (String.utf8Len front) =
      some ⟨(Lexeme.next c rest).kind, (Lexeme.next c rest).text,
        String.utf8Len front + String.utf8Len (Lexeme.next c rest).chars⟩ := by
  have hsize : String.utf8Len front < text.utf8ByteSize := by
    have := c.utf8Size_pos
    rw [← String.utf8Len_toList, h, String.utf8Len_append, String.utf8Len_cons]
    omega
  -- what the automaton on bytes finds is where the one on characters puts it
  have hlongest : LexState.start.longest text.toByteArray (String.utf8Len front) none
      = (Reading.start.longest 0 none (c :: rest)).map
        (LexState.placed (String.utf8Len front) (c :: rest)) := by
    have hbytes : text.toByteArray.data.toList.drop (String.utf8Len front) = encoded (c :: rest) := by
      rw [show text.toByteArray.data.toList = encoded text.toList from bytesOf_eq text, h,
        ← length_encoded, encoded_append]
      exact List.drop_left
    have hread : Reading.start.after [] = some .start := rfl
    rw [LexState.longest_eq, hbytes]
    exact LexState.upTo_eq (String.utf8Len front) hread none
  have hcut : slice? text (String.utf8Len front)
      (String.utf8Len front + String.utf8Len (Lexeme.next c rest).chars)
        = some (Lexeme.next c rest).text :=
    slice?_eq (h.trans (congrArg _ (Lexeme.chars_next c rest).symm))
  rw [nextPiece?, if_neg (Nat.not_le.2 hsize), hlongest]
  cases hfound : Reading.start.longest 0 none (c :: rest) with
  | none =>
      have hnext : Lexeme.next c rest = ⟨.unmatched, c, []⟩ := by rw [Lexeme.next, hfound]
      have hrest : slice? text (String.utf8Len front) text.utf8ByteSize
          = some (String.ofList (c :: rest)) := by
        rw [← String.utf8Len_toList, h, String.utf8Len_append]
        exact slice?_eq (h.trans (by rw [List.append_nil]))
      have hwidth : String.utf8Len (Lexeme.next c rest).chars = c.utf8Size := by
        rw [hnext]
        exact Nat.zero_add _
      rw [hwidth] at hcut ⊢
      simp only [Option.map_none, hrest, Option.bind_eq_bind, Option.bind_some, String.front?_eq,
        String.toList_ofList, List.head?_cons, Option.map_some, Option.getD_some, hcut]
      rw [hnext]
  | some found =>
      obtain ⟨kind, count⟩ := found
      obtain ⟨n, last, rfl, -⟩ :=
        (Reading.exists_of_longest hfound).resolve_left (Option.some_ne_none _).symm
      have hnext : Lexeme.next c rest = ⟨if kind = .identifier then
          .ofWord (String.ofList ((c :: rest).take (n + 1))) else kind, c, rest.take n⟩ := by
        rw [Lexeme.next, hfound, Nat.zero_add]
        rfl
      have hchars : (Lexeme.next c rest).chars = (c :: rest).take (n + 1) := by
        rw [hnext]
        rfl
      rw [Option.map_some, LexState.placed, Nat.zero_add, ← hchars]
      simp only [hcut, Option.map_some]
      rw [hchars, hnext]

-- ================================================================ scanner

/-- No text begins with the end of input. -/
theorem Lexeme.next_ne_end (c : Char) (rest : List Char) : (next c rest).kind ≠ .endOfInput := by
  intro hend
  refine (lexical_next c rest fun hunmatched => ?_).ne_end hend
  cases hunmatched.symm.trans hend

namespace Scanner

/-- What a scanner answers that is not at the end, from what is cut off. -/
theorem next_eq {scanner : Scanner} (hopen : scanner.atEnd = false) {piece : Piece}
    (h : nextPiece? scanner.source.text scanner.offset = some piece) :
    scanner.next =
      if piece.kind = .endOfInput then
        .token ⟨piece.kind, piece.lexeme, .before scanner.offset, scanner.source.position scanner.offset⟩
          { scanner with offset := piece.stop, atEnd := true }
      else if scanner.offset < piece.stop then
        if piece.kind = .whitespace then { scanner with offset := piece.stop }.next
        else
          .token ⟨piece.kind, piece.lexeme, .between scanner.offset piece.stop,
            scanner.source.position scanner.offset⟩ { scanner with offset := piece.stop }
      else .failed := by
  rw [next, hopen, if_neg Bool.false_ne_true]
  split
  · rename_i hnone
    cases hnone.symm.trans h
  · rename_i other hother
    cases hother.symm.trans h
    rfl

/-- What a scanner gives from its first answer on. -/
theorem tokens?_next (scanner : Scanner) :
    scanner.tokens? = match scanner.next with
      | .failed => none
      | .ended => some []
      | .token token after => after.tokens?.map (token :: ·) := by
  rw [tokens?]
  split <;> rename_i h <;> rw [h]

/-- The scanner does not fail, and its tokens are those that are cut off the
characters it has in front of it. -/
theorem tokens?_eq {source : Source} {front rest : List Char} {cursor : Cursor}
    (h : source.text.toList = front ++ rest) (hcursor : cursor = Cursor.start.advanceAll front) :
    (⟨source, cursor.offset, false⟩ : Scanner).tokens? = some (Token.scanFrom cursor rest) := by
  induction hlength : rest.length using Nat.strong_induction_on generalizing front rest cursor with
  | _ length ih =>
      subst hlength
      have hoffset : cursor.offset = String.utf8Len front := by
        rw [hcursor, Cursor.offset_advanceAll]
        exact Nat.zero_add _
      have hposition : source.position cursor.offset = cursor.position := by
        rw [hoffset, hcursor]
        exact Source.position_eq h
      cases rest with
      | nil =>
          have hpiece : nextPiece? source.text cursor.offset
              = some ⟨.endOfInput, "", source.text.utf8ByteSize⟩ := by
            rw [nextPiece?, if_pos]
            rw [hoffset, ← String.utf8Len_toList, h, List.append_nil]
          have hended : (⟨source, source.text.utf8ByteSize, true⟩ : Scanner).tokens? = some [] := by
            rw [tokens?_next, next, if_pos rfl]
          rw [tokens?_next, next_eq rfl hpiece, if_pos rfl]
          simp only [hended, hposition, Option.map_some]
          rw [Token.scanFrom, Token.atEnd]
      | cons c rest =>
          have hchars := Lexeme.chars_next c rest
          have hpiece := nextPiece?_eq h
          rw [← hoffset, ← Cursor.offset_advanceAll] at hpiece
          have hmoved : cursor.offset < (cursor.advanceAll (Lexeme.next c rest).chars).offset := by
            rw [Cursor.offset_advanceAll, Lexeme.chars, String.utf8Len_cons]
            have := (Lexeme.next c rest).first.utf8Size_pos
            omega
          have hbehind : cursor.advanceAll (Lexeme.next c rest).chars
              = Cursor.start.advanceAll (front ++ (Lexeme.next c rest).chars) := by
            rw [hcursor, Cursor.advanceAll_append]
          have hrest := ih (rest.drop (Lexeme.next c rest).others.length).length
            (by rw [List.length_drop, List.length_cons]; omega)
            (by rw [h, ← hchars, List.append_assoc]) hbehind rfl
          rw [tokens?_next, next_eq rfl hpiece, if_neg (Lexeme.next_ne_end c rest), if_pos hmoved,
            Token.scanFrom]
          by_cases hblank : (Lexeme.next c rest).kind = .whitespace
          · rw [if_pos hblank, if_pos hblank, ← tokens?_next]
            exact hrest
          · rw [if_neg hblank, if_neg hblank]
            simp only [hrest, hposition, Option.map_some]

end Scanner

/-- The scanner of a text comes to its end. -/
theorem Scanner.tokens?_ofText (text : String) :
    (ofText text).tokens? = some (Token.scanFrom .start (Comment.blank text.toList)) := by
  have htext : (Source.ofText (.ofList (Comment.blank text.toList))).text.toList
      = [] ++ Comment.blank text.toList := String.toList_ofList
  exact tokens?_eq htext rfl

/-- The tokens of a text are those that are cut off its characters, comment
lines blanked first. -/
theorem Token.scan_eq (text : String) : scan text = scanFrom .start (Comment.blank text.toList) := by
  rw [scan, Scanner.tokens?_ofText, Option.getD_some]

theorem Token.scan_ne_nil (text : String) : scan text ≠ [] := by
  rw [scan_eq]
  exact scanFrom_ne_nil _ _

end BoardScript
