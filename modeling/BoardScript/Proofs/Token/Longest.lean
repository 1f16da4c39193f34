/-
What a token is, written down without the automaton. The texts of blanks,
words, numerals and strings are regular languages, the operators are lists
of one or two characters, and a word is a keyword when the list of keywords
has it (`TokenKind.Spelled`). What is cut off a text is the longest text in
front of it that is spelled as a token of some kind, or a single character
when none is (`Lexeme.next_longest`).

Each language comes with what is left to read of it in every state of the
automaton. A family of languages that takes the steps of the automaton is
what the automaton reads from each state (`Reading.Traced.mem_iff`), so for
each kind of token there are two things to check: where a text may end, and
how it goes on with one more character.
-/
import BoardScript.Proofs.Token.Bytes
import Mathlib.Computability.Language

namespace BoardScript

open Computability

-- ========================================================= texts of tokens

namespace Token

/-- The texts of one character of a class. -/
def oneOf (p : Char → Bool) : Language Char := { text | ∃ c, p c = true ∧ text = [c] }

/-- One or more characters of a class. -/
def runOf (p : Char → Bool) : Language Char := oneOf p * (oneOf p)∗

/-- A letter, `_` or `$`, and then digits too. -/
def words : Language Char := oneOf isWordStart * (oneOf isWordPart)∗

/-- A text or nothing. -/
def optional (language : Language Char) : Language Char := 1 + language

/-- The power of ten behind a fraction: a sign may stand in front. -/
def exponents : Language Char :=
  oneOf (fun c => c = 'e' || c = 'E') *
    (optional (oneOf fun c => c = '+' || c = '-') * runOf Char.isDigit)

/-- A point with digits behind it. Digits in front and an exponent may be
left out. -/
def floats : Language Char :=
  (oneOf Char.isDigit)∗ * (oneOf (· = '.') * (runOf Char.isDigit * optional exponents))

/-- What may stand between the quotes of a string: a character that is no
quote and no backslash, a backslash with any character, two quotes. -/
def pieces : Language Char :=
  oneOf (fun c => c ≠ '\x27' && c ≠ '\x5c') + oneOf (· = '\x5c') * oneOf (fun _ => true)
    + oneOf (· = '\x27') * oneOf (· = '\x27')

def strings : Language Char := oneOf (· = '\x27') * (pieces∗ * oneOf (· = '\x27'))

end Token

open Token

/-- The texts of the tokens of each kind. -/
inductive TokenKind.Spelled : TokenKind → List Char → Prop
  | whitespace {text} : text ∈ runOf isSpace → Spelled .whitespace text
  | keyword {text kind} : text ∈ words → (String.ofList text, kind) ∈ keywords → Spelled kind text
  | identifier {text} : text ∈ words → (∀ kind, (String.ofList text, kind) ∉ keywords) →
      Spelled .identifier text
  | integer {text} : text ∈ runOf Char.isDigit → Spelled .integer text
  | float {text} : text ∈ floats → Spelled .float text
  | string {text} : text ∈ strings → Spelled .string text
  | dot : Spelled .dot ['.']
  | operator {c kind} : operatorOf c = some kind → Spelled kind [c]
  | pair {a b kind} : operatorOfPair a b = some kind → Spelled kind [a, b]

-- ======================================================== one more character

namespace Token

variable {p : Char → Bool} {language : Language Char} {c : Char} {text : List Char}

@[simp] theorem nil_notMem_oneOf : [] ∉ oneOf p := by
  rintro ⟨c, -, h⟩
  cases h

@[simp] theorem cons_mem_oneOf : c :: text ∈ oneOf p ↔ p c = true ∧ text = [] := by
  constructor
  · rintro ⟨d, hd, h⟩
    cases h
    exact ⟨hd, rfl⟩
  · rintro ⟨hc, rfl⟩
    exact ⟨c, hc, rfl⟩

@[simp] theorem nil_notMem_oneOf_mul : [] ∉ oneOf p * language := by
  rintro ⟨_, ⟨c, -, rfl⟩, _, -, h⟩
  cases h

@[simp] theorem cons_mem_oneOf_mul :
    c :: text ∈ oneOf p * language ↔ p c = true ∧ text ∈ language := by
  constructor
  · rintro ⟨_, ⟨d, hd, rfl⟩, rest, hrest, h⟩
    cases h
    exact ⟨hd, hrest⟩
  · rintro ⟨hc, htext⟩
    exact Language.append_mem_mul (a := [c]) ⟨c, hc, rfl⟩ htext

theorem star_mul (first second : Language Char) :
    first∗ * second = second + first * (first∗ * second) := by
  rw [← mul_assoc, ← one_add_mul, Language.one_add_self_mul_kstar_eq_kstar]

@[simp] theorem nil_mem_star_mul : [] ∈ (oneOf p)∗ * language ↔ [] ∈ language := by
  rw [star_mul, Language.mem_add]
  simp

@[simp] theorem cons_mem_star_mul : c :: text ∈ (oneOf p)∗ * language ↔
    c :: text ∈ language ∨ p c = true ∧ text ∈ (oneOf p)∗ * language := by
  rw [star_mul, Language.mem_add, cons_mem_oneOf_mul, ← star_mul]

@[simp] theorem cons_mem_star : c :: text ∈ (oneOf p)∗ ↔ p c = true ∧ text ∈ (oneOf p)∗ := by
  simpa using @cons_mem_star_mul p 1 c text

@[simp] theorem nil_mem_optional : [] ∈ optional language := .inl rfl

@[simp] theorem cons_mem_optional : c :: text ∈ optional language ↔ c :: text ∈ language :=
  or_iff_right (List.cons_ne_nil c text)

theorem mem_optional_mul {first second : Language Char} :
    text ∈ optional first * second ↔ text ∈ second ∨ text ∈ first * second := by
  rw [optional, one_add_mul, Language.mem_add]

/-- What is left of a string behind its first quote. -/
def stringRest : Language Char := pieces∗ * oneOf (· = '\x27')

theorem mem_pieces_mul : text ∈ pieces * language ↔
    text ∈ oneOf (fun c => c ≠ '\x27' && c ≠ '\x5c') * language ∨
      text ∈ oneOf (· = '\x5c') * (oneOf (fun _ => true) * language) ∨
        text ∈ oneOf (· = '\x27') * (oneOf (· = '\x27') * language) := by
  rw [pieces, add_mul, add_mul, mul_assoc, mul_assoc, Language.mem_add, Language.mem_add, or_assoc]

theorem mem_stringRest :
    text ∈ stringRest ↔ text ∈ oneOf (· = '\x27') ∨ text ∈ pieces * stringRest := by
  conv_lhs => rw [stringRest, star_mul, Language.mem_add]
  rfl

theorem nil_notMem_stringRest : [] ∉ stringRest := by
  rw [mem_stringRest, mem_pieces_mul]
  simp

theorem cons_mem_stringRest : c :: text ∈ stringRest ↔
    c = '\x27' ∧ text ∈ optional (oneOf (· = '\x27') * stringRest) ∨
      c = '\x5c' ∧ text ∈ oneOf (fun _ => true) * stringRest ∨
        c ≠ '\x27' ∧ c ≠ '\x5c' ∧ text ∈ stringRest := by
  rw [mem_stringRest, mem_pieces_mul, optional, Language.mem_add, Language.mem_one]
  simp only [cons_mem_oneOf, cons_mem_oneOf_mul, decide_eq_true_eq, Bool.and_eq_true]
  tauto

end Token

-- ============================================================== automaton

namespace Reading

/-- A family of languages that takes the steps of the automaton, and in
which texts end in some of its states. -/
structure Traced (ending : Reading → Prop) (languages : Reading → Language Char) : Prop where
  nil : ∀ reading, [] ∈ languages reading ↔ ending reading
  cons : ∀ reading c text, c :: text ∈ languages reading ↔
    ∃ next, reading.step c = some next ∧ text ∈ languages next

/-- Such a family is what can be read from each state on. -/
theorem Traced.mem_iff {ending : Reading → Prop} {languages : Reading → Language Char}
    (h : Traced ending languages) (reading : Reading) (text : List Char) :
    text ∈ languages reading ↔ ∃ last, reading.after text = some last ∧ ending last := by
  induction text generalizing reading with
  | nil => simp [h.nil, after]
  | cons c text ih =>
      rw [h.cons]
      constructor
      · rintro ⟨next, hstep, htext⟩
        obtain ⟨last, hafter, hlast⟩ := (ih next).1 htext
        exact ⟨last, Option.bind_eq_some_iff.2 ⟨next, hstep, hafter⟩, hlast⟩
      · rintro ⟨last, hafter, hlast⟩
        obtain ⟨next, hstep, hrest⟩ := Option.bind_eq_some_iff.1 hafter
        exact ⟨next, hstep, (ih next).2 ⟨last, hrest, hlast⟩⟩

-- ======================================== what is left to read in a state

section

variable {c : Char} {text : List Char} {languages : Reading → Language Char}

theorem exists_step {reading : Reading} {p : Reading → Prop} :
    (∃ next, reading.step c = some next ∧ p next) ↔ (reading.step c).elim False p := by
  cases reading.step c <;> simp

/-- Where only one of the states that are entered from the start leads on. -/
theorem exists_begunBy (into : Reading)
    (h : ∀ next c, next.BegunBy c → next = into ∨ languages next = 0) :
    (∃ next, start.step c = some next ∧ text ∈ languages next) ↔
      into.BegunBy c ∧ text ∈ languages into := by
  simp only [step_start]
  constructor
  · rintro ⟨next, hc, htext⟩
    rcases h next c hc with rfl | hzero
    · exact ⟨hc, htext⟩
    · rw [hzero] at htext
      cases htext
  · exact fun h => ⟨into, h⟩

end

/-- A run of characters behind a first one, from each state. -/
def runFrom (into : Reading) (first more : Char → Bool) (reading : Reading) : Language Char :=
  if reading = start then oneOf first * (oneOf more)∗
  else if reading = into then (oneOf more)∗
  else 0

/-- A state that is entered from the start and then stays reads a run. -/
theorem traced_run {into : Reading} {first more : Char → Bool} (hinto : into ≠ start)
    (hfirst : ∀ c, into.BegunBy c ↔ first c = true)
    (hmore : ∀ c, into.step c = some into ↔ more c = true)
    (hothers : ∀ reading c, reading.step c = some into → reading = start ∨ reading = into) :
    Traced (· = into) (runFrom into first more) where
  nil reading := by
    unfold runFrom
    split
    · rename_i h
      simp [h, hinto.symm]
    · split <;> simp [*, Language.nil_mem_kstar, Language.notMem_zero]
  cons reading c text := by
    -- of the states that can be next, only the one that stays reads anything
    have hnext : (∃ next, reading.step c = some next ∧ text ∈ runFrom into first more next) ↔
        reading.step c = some into ∧ text ∈ (oneOf more)∗ := by
      constructor
      · rintro ⟨next, hstep, htext⟩
        rw [runFrom, if_neg (step_cases hstep).1] at htext
        split at htext
        · rename_i h
          exact ⟨h ▸ hstep, htext⟩
        · cases htext
      · rintro ⟨hstep, htext⟩
        exact ⟨into, hstep, by rwa [runFrom, if_neg hinto, if_pos rfl]⟩
    rw [hnext, runFrom]
    split
    · rename_i h
      rw [h, step_start, hfirst, cons_mem_oneOf_mul]
    · rename_i hstart
      split
      · rename_i h
        rw [h, hmore, cons_mem_star]
      · rename_i hne
        simp only [Language.notMem_zero, false_iff, not_and]
        exact fun hstep => absurd (hothers reading c hstep) (by simp [hstart, hne])

theorem traced_blanks : Traced (· = whitespace) (runFrom whitespace isSpace isSpace) :=
  traced_run nofun (fun _ => .rfl) (fun c => by simp [step]) fun _ _ h =>
    (whitespace_step h).imp_left And.left

theorem traced_words : Traced (· = word) (runFrom word isWordStart isWordPart) :=
  traced_run nofun (fun _ => .rfl) (fun c => by simp [step]) fun _ _ h =>
    ((step_cases h).2.1 rfl).imp_left And.left

theorem traced_integers : Traced (· = integer) (runFrom integer Char.isDigit Char.isDigit) := by
  refine traced_run nofun (fun _ => .rfl) (fun c => by simp [step]) fun reading c h => ?_
  cases reading with
  | start => exact .inl rfl
  | integer => exact .inr rfl
  | opening first => simp [step] at h
  | _ => grind [step]

/-- Strings, from each state. -/
def stringsFrom : Reading → Language Char
  | start => strings
  | stringBody => stringRest
  | stringEscape => oneOf (fun _ => true) * stringRest
  | stringClosed => optional (oneOf (· = '\x27') * stringRest)
  | _ => 0

theorem traced_strings : Traced (· = stringClosed) stringsFrom where
  nil reading := by
    cases reading <;> simp [stringsFrom, strings, nil_notMem_stringRest, Language.notMem_zero]
  cons reading c text := by
    cases reading with
    | start =>
        rw [exists_begunBy stringBody fun next c hc => by
          cases next <;> first | exact .inl rfl | exact .inr rfl | cases hc]
        simp [stringsFrom, strings, BegunBy, stringRest]
    | opening first =>
        cases hpair : operatorOfPair first c <;>
          simp [step, hpair, stringsFrom, Language.notMem_zero]
    | stringBody =>
        rw [exists_step, step]
        repeat' split
        all_goals simp_all [stringsFrom, cons_mem_stringRest]
    | stringEscape => simp [step, stringsFrom]
    | _ =>
        rw [exists_step, step]
        repeat' split
        all_goals simp_all [stringsFrom, Language.notMem_zero]

/-- Numerals with a point, from each state. -/
def floatsFrom : Reading → Language Char
  | start | integer => floats
  | integerDot | leadingDot => runOf Char.isDigit * optional exponents
  | fraction => (oneOf Char.isDigit)∗ * optional exponents
  | exponentMark => optional (oneOf fun c => c = '+' || c = '-') * runOf Char.isDigit
  | exponentSign => runOf Char.isDigit
  | exponent => (oneOf Char.isDigit)∗
  | _ => 0

theorem traced_floats :
    Traced (fun reading => reading = fraction ∨ reading = exponent) floatsFrom where
  nil reading := by
    cases reading <;> simp [floatsFrom, floats, runOf, mul_assoc, mem_optional_mul,
      Language.nil_mem_kstar, Language.notMem_zero]
  cons reading c text := by
    cases reading with
    | start =>
        have hfloats : c :: text ∈ floats ↔
            c = '.' ∧ text ∈ runOf Char.isDigit * optional exponents ∨
              c.isDigit = true ∧ text ∈ floats := by
          simp [floats]
        rw [floatsFrom, hfloats]
        simp only [step_start]
        constructor
        · rintro (⟨hc, htext⟩ | ⟨hc, htext⟩)
          · exact ⟨leadingDot, hc, htext⟩
          · exact ⟨integer, hc, htext⟩
        · rintro ⟨next, hc, htext⟩
          cases next with
          | leadingDot => exact .inl ⟨hc, htext⟩
          | integer => exact .inr ⟨hc, htext⟩
          | whitespace | word | stringBody | opening | operator => cases htext
          | _ => cases hc
    | opening first =>
        cases hpair : operatorOfPair first c <;>
          simp [step, hpair, floatsFrom, Language.notMem_zero]
    | exponentMark => 
        have hc : c.isDigit = true → ¬ (c = '+' ∨ c = '-') := by
          rintro h (rfl | rfl) <;> cases h
        rw [exists_step, step]
        repeat' split
        all_goals simp_all [floatsFrom, runOf, mem_optional_mul]
    | _ =>
        have hc : c.isDigit = true → c ≠ '.' ∧ c ≠ 'e' ∧ c ≠ 'E' := by
          rintro h
          refine ⟨?_, ?_, ?_⟩ <;> (rintro rfl; cases h)
        rw [exists_step, step]
        repeat' split
        all_goals simp_all [floatsFrom, floats, runOf, mul_assoc, exponents, mem_optional_mul,
          Language.notMem_zero]

/-- A dot, from each state. -/
def dotFrom : Reading → Language Char
  | start => oneOf (· = '.')
  | leadingDot => 1
  | _ => 0

theorem traced_dot : Traced (· = leadingDot) dotFrom where
  nil reading := by cases reading <;> simp [dotFrom, Language.notMem_zero]
  cons reading c text := by
    cases reading with
    | start =>
        rw [exists_begunBy leadingDot fun next c hc => by
          cases next <;> first | exact .inl rfl | exact .inr rfl | cases hc]
        simp [dotFrom, BegunBy]
    | opening first =>
        cases hpair : operatorOfPair first c <;>
          simp [step, hpair, dotFrom, Language.notMem_zero]
    | _ =>
        rw [exists_step, step]
        repeat' split
        all_goals simp_all [dotFrom, Language.notMem_zero]

/-- Operators of a kind, from each state. -/
def OperatorFrom (kind : TokenKind) : Reading → List Char → Prop
  | start, [c] => operatorOf c = some kind
  | start, [a, b] => operatorOfPair a b = some kind
  | opening first, [] => operatorOf first = some kind
  | opening first, [b] => operatorOfPair first b = some kind
  | operator other, [] => other = kind
  | _, _ => False

theorem beginsPair_of_pair {a b : Char} {kind : TokenKind} (h : operatorOfPair a b = some kind) :
    beginsPair a = true := by
  unfold operatorOfPair at h
  split at h
  any_goals rfl
  cases h

theorem traced_operators (kind : TokenKind) :
    Traced (fun reading => (∃ first, reading = opening first ∧ operatorOf first = some kind) ∨
      reading = operator kind) (fun reading => { text | OperatorFrom kind reading text }) where
  nil reading := by
    show OperatorFrom kind reading [] ↔ _
    cases reading <;> simp [OperatorFrom]
  cons reading c text := by
    show OperatorFrom kind reading (c :: text) ↔ ∃ next, _ ∧ OperatorFrom kind next text
    cases reading with
    | start =>
        simp only [step_start]
        constructor
        · intro h
          match text, h with
          | [], h =>
            cases hc : beginsPair c with
            | true => exact ⟨opening c, ⟨rfl, hc⟩, h⟩
            | false => exact ⟨operator kind, ⟨hc, h⟩, rfl⟩
          | [b], h => exact ⟨opening c, ⟨rfl, beginsPair_of_pair h⟩, h⟩
        · rintro ⟨next, hc, h⟩
          cases next with
          | opening first =>
            obtain ⟨rfl, -⟩ := hc
            match text, h with
            | [], h => exact h
            | [b], h => exact h
          | operator other =>
            match text, h with
            | [], h => exact (show other = kind from h) ▸ hc.2
          | whitespace | word | integer | leadingDot | stringBody => cases h
          | _ => cases hc
    | opening first =>
        rw [exists_step, step]
        cases hpair : operatorOfPair first c <;> cases text <;> simp [OperatorFrom, hpair]
    | operator other => simp [step, OperatorFrom]
    | _ =>
        rw [exists_step, step]
        repeat' split
        all_goals simp [OperatorFrom]

end Reading

-- ================================================================ spelling

namespace Reading

/-- Operators are read as such. -/
theorem spelled_operator {kind : TokenKind} {text : List Char} (hkind : kind.isFree = false)
    (h : OperatorFrom kind start text) :
    ∃ reading, start.after text = some reading ∧ reading.kindOf text = some kind := by
  obtain ⟨last, hafter, ⟨first, rfl, hfirst⟩ | rfl⟩ :=
    ((traced_operators kind).mem_iff start text).1 h
  · exact ⟨_, hafter, kindOf_operator hfirst hkind⟩
  · exact ⟨_, hafter, kindOf_operator rfl hkind⟩

end Reading

namespace TokenKind

theorem Spelled.of_operator {kind : TokenKind} {text : List Char}
    (h : Reading.OperatorFrom kind .start text) : kind.Spelled text := by
  match text, h with
  | [_], h => exact .operator h
  | [_, _], h => exact .pair h

/-- Tokens are spelled as the automaton reads them. -/
theorem spelled_iff {kind : TokenKind} {text : List Char} : kind.Spelled text ↔
    ∃ reading, Reading.start.after text = some reading ∧ reading.kindOf text = some kind := by
  constructor
  · intro h
    cases h with
    | whitespace h =>
        obtain ⟨_, hafter, rfl⟩ := (Reading.traced_blanks.mem_iff .start text).1 h
        exact ⟨_, hafter, rfl⟩
    | keyword h hkind =>
        obtain ⟨_, hafter, rfl⟩ := (Reading.traced_words.mem_iff .start text).1 h
        exact ⟨_, hafter, congrArg some (ofWord_eq_iff.2 (.inl hkind))⟩
    | identifier h hkind =>
        obtain ⟨_, hafter, rfl⟩ := (Reading.traced_words.mem_iff .start text).1 h
        exact ⟨_, hafter, congrArg some (ofWord_eq_iff.2 (.inr ⟨hkind, rfl⟩))⟩
    | integer h =>
        obtain ⟨_, hafter, rfl⟩ := (Reading.traced_integers.mem_iff .start text).1 h
        exact ⟨_, hafter, rfl⟩
    | float h =>
        obtain ⟨_, hafter, rfl | rfl⟩ := (Reading.traced_floats.mem_iff .start text).1 h
        · exact ⟨_, hafter, rfl⟩
        · exact ⟨_, hafter, rfl⟩
    | string h =>
        obtain ⟨_, hafter, rfl⟩ := (Reading.traced_strings.mem_iff .start text).1 h
        exact ⟨_, hafter, rfl⟩
    | dot => exact ⟨_, rfl, rfl⟩
    | operator h => exact Reading.spelled_operator (isFree_operatorOf h) h
    | pair h => exact Reading.spelled_operator (isFree_operatorOfPair h) h
  · rintro ⟨reading, hafter, hkind⟩
    cases reading with
    | whitespace =>
        cases hkind
        exact .whitespace ((Reading.traced_blanks.mem_iff .start text).2 ⟨_, hafter, rfl⟩)
    | word =>
        have hword : text ∈ words :=
          (Reading.traced_words.mem_iff .start text).2 ⟨_, hafter, rfl⟩
        rcases ofWord_eq_iff.1 (Option.some.inj hkind) with hkey | ⟨hnone, rfl⟩
        · exact .keyword hword hkey
        · exact .identifier hword hnone
    | integer =>
        cases hkind
        exact .integer ((Reading.traced_integers.mem_iff .start text).2 ⟨_, hafter, rfl⟩)
    | fraction =>
        cases hkind
        exact .float ((Reading.traced_floats.mem_iff .start text).2 ⟨_, hafter, .inl rfl⟩)
    | exponent =>
        cases hkind
        exact .float ((Reading.traced_floats.mem_iff .start text).2 ⟨_, hafter, .inr rfl⟩)
    | stringClosed =>
        cases hkind
        exact .string ((Reading.traced_strings.mem_iff .start text).2 ⟨_, hafter, rfl⟩)
    | leadingDot =>
        cases hkind
        obtain ⟨c, hc, rfl⟩ := (Reading.traced_dot.mem_iff .start text).2 ⟨_, hafter, rfl⟩
        rw [of_decide_eq_true hc]
        exact .dot
    | opening first =>
        obtain ⟨accepted, haccepts, -⟩ := Option.map_eq_some_iff.1 hkind
        rw [Reading.kindOf_operator haccepts (isFree_operatorOf haccepts)] at hkind
        cases hkind
        exact .of_operator (((Reading.traced_operators _).mem_iff .start text).2
          ⟨_, hafter, .inl ⟨first, rfl, haccepts⟩⟩)
    | operator accepted =>
        have hfree := (Reading.after_operator hafter).resolve_left (by simp)
        rw [Reading.kindOf_operator rfl hfree] at hkind
        cases hkind
        exact .of_operator (((Reading.traced_operators _).mem_iff .start text).2
          ⟨_, hafter, .inr rfl⟩)
    | _ => cases hkind

end TokenKind

-- ============================================================ longest match

/-- A token in front of a text than which there is no longer one. -/
structure Longest (kind : TokenKind) (token text : List Char) : Prop where
  spelled : kind.Spelled token
  front : token <+: text
  longest : ∀ (other : TokenKind) (front : List Char), front <+: text → other.Spelled front →
    front.length ≤ token.length

theorem TokenKind.Spelled.ne_nil {kind : TokenKind} {text : List Char} (h : kind.Spelled text) :
    text ≠ [] := by
  rintro rfl
  obtain ⟨_, rfl | _, hkind⟩ := spelled_iff.1 h
  cases hkind

/-- A text is spelled as a token of one kind. -/
theorem TokenKind.Spelled.unique {kind other : TokenKind} {text : List Char} (h : kind.Spelled text)
    (hother : other.Spelled text) : kind = other := by
  obtain ⟨reading, hafter, hkind⟩ := spelled_iff.1 h
  obtain ⟨_, hafter', hkind'⟩ := spelled_iff.1 hother
  cases hafter.symm.trans hafter'
  exact Option.some.inj (hkind.symm.trans hkind')

/-- Of a text with a token in front the automaton takes at least as much. -/
theorem Reading.longest_of_spelled {kind : TokenKind} {front : List Char} (h : kind.Spelled front)
    (rest : List Char) : ∃ found count,
      start.longest 0 none (front ++ rest) = some (found, count) ∧ front.length ≤ count := by
  obtain ⟨last, hafter, hkind⟩ := TokenKind.spelled_iff.1 h
  obtain ⟨accepted, haccepts, -⟩ := Option.map_eq_some_iff.1 hkind
  rw [longest_after hafter h.ne_nil haccepts, Nat.zero_add]
  rcases last.stalls_or rest with hstall | ⟨found, count, hfound⟩
  · exact ⟨_, _, hstall _ _, le_rfl⟩
  · exact ⟨_, _, hfound _ _, by omega⟩

/-- What is cut off a text is spelled as a token of its kind, if it is
anything. -/
theorem Lexeme.spelled_next (c : Char) (rest : List Char) (h : (next c rest).kind ≠ .unmatched) :
    (next c rest).kind.Spelled (next c rest).chars := by
  obtain ⟨last, -, hafter, hkind⟩ := lexical_next c rest h
  rw [text, String.toList_ofList] at hafter hkind
  exact TokenKind.spelled_iff.2 ⟨last, hafter, hkind⟩

/-- What is cut off a text is its longest token, and of the kind as which
that is spelled. Where a text begins with no token, one character is cut
off. -/
theorem Lexeme.next_longest (c : Char) (rest : List Char) :
    (Longest (next c rest).kind (next c rest).chars (c :: rest) ∧
      ∀ other : TokenKind, other.Spelled (next c rest).chars → other = (next c rest).kind) ∨
    (∀ (kind : TokenKind) (front : List Char), front <+: c :: rest → ¬ kind.Spelled front) ∧
      next c rest = ⟨.unmatched, c, []⟩ := by
  cases hlongest : Reading.start.longest 0 none (c :: rest) with
  | none =>
      refine .inr ⟨?_, by rw [next, hlongest]⟩
      rintro kind front ⟨behind, hfront⟩ hspelled
      obtain ⟨found, count, hfound, -⟩ := Reading.longest_of_spelled hspelled behind
      rw [hfront, hlongest] at hfound
      cases hfound
  | some found =>
      obtain ⟨accepted, count⟩ := found
      obtain ⟨n, last, rfl, hafter, haccepts, hn⟩ :=
        (Reading.exists_of_longest hlongest).resolve_left (Option.some_ne_none _).symm
      have hchars : (next c rest).chars = (c :: rest).take (n + 1) := by
        rw [next, hlongest]
        simp [chars]
      have hspelled : (next c rest).kind.Spelled (next c rest).chars := by
        refine TokenKind.spelled_iff.2 ⟨last, hchars ▸ hafter, ?_⟩
        rw [Reading.kindOf, haccepts, next, hlongest]
        simp [chars]
      refine .inl ⟨⟨hspelled, hchars ▸ List.take_prefix _ _, ?_⟩, fun other h => h.unique hspelled⟩
      rintro kind front ⟨behind, hfront⟩ hfrontSpelled
      obtain ⟨found, count, hfound, hlength⟩ := Reading.longest_of_spelled hfrontSpelled behind
      rw [hfront, hlongest] at hfound
      cases hfound
      rw [hchars, List.length_take]
      omega

/-- At every place between characters the scanner cuts off the longest token
that stands there, as the one kind that it is spelled as, or one character
where no token stands. -/
theorem nextPiece?_longest (text : String) (offset : Nat) (hplace : String.Pos.Raw.IsValid text ⟨offset⟩)
    (hoffset : offset < text.utf8ByteSize) :
    ∃ rest piece, slice? text offset text.utf8ByteSize = some rest ∧
      nextPiece? text offset = some piece ∧ slice? text offset piece.stop = some piece.lexeme ∧
      ((Longest piece.kind piece.lexeme.toList rest.toList ∧
          ∀ other : TokenKind, other.Spelled piece.lexeme.toList → other = piece.kind) ∨
        (∀ (kind : TokenKind) (front : List Char), front <+: rest.toList → ¬ kind.Spelled front) ∧
          piece.kind = .unmatched ∧ ∃ c, piece.lexeme = .singleton c) := by
  obtain ⟨front, back, htext, hfront⟩ := String.Pos.Raw.isValid_iff_exists_append.1 hplace
  have hlength : offset = String.utf8Len front.toList := by
    rw [String.utf8Len_toList]
    exact congrArg String.Pos.Raw.byteIdx hfront
  have hwhole : text.toList = front.toList ++ (back.toList ++ []) := by
    rw [htext, String.toList_append, List.append_nil]
  have hsize : text.utf8ByteSize = String.utf8Len front.toList + String.utf8Len back.toList := by
    rw [← String.utf8Len_toList, hwhole, List.append_nil, String.utf8Len_append]
  have hrest : slice? text offset text.utf8ByteSize = some back := by
    rw [hlength, hsize, slice?_eq hwhole, String.ofList_toList]
  cases hback : back.toList with
  | nil =>
      rw [hback, hlength.symm] at hsize
      exact absurd hoffset (by rw [hsize]; simp)
  | cons c rest =>
      rw [List.append_nil, hback] at hwhole
      have hcut : slice? text (String.utf8Len front.toList)
          (String.utf8Len front.toList + String.utf8Len (Lexeme.next c rest).chars)
            = some (Lexeme.next c rest).text :=
        slice?_eq (hwhole.trans (congrArg _ (Lexeme.chars_next c rest).symm))
      refine ⟨back, _, hrest, hlength ▸ nextPiece?_eq hwhole, hlength ▸ hcut, ?_⟩
      rw [hback, show (Lexeme.next c rest).text.toList = (Lexeme.next c rest).chars from
        String.toList_ofList]
      refine (Lexeme.next_longest c rest).imp_right fun ⟨hnone, hnext⟩ => ⟨hnone, ?_⟩
      rw [hnext]
      exact ⟨rfl, c, rfl⟩

/-- Behind a character of two bytes the digits of an exponent are missing, and
the automaton goes back to the fraction. -/
theorem nextPiece?_longest_unfinished :
    nextPiece? "é2.5e+" 2 = some ⟨.float, "2.5", 5⟩ ∧
    ∃ rest piece, slice? "é2.5e+" 2 "é2.5e+".utf8ByteSize = some rest ∧
      nextPiece? "é2.5e+" 2 = some piece ∧ slice? "é2.5e+" 2 piece.stop = some piece.lexeme ∧
      ((Longest piece.kind piece.lexeme.toList rest.toList ∧
          ∀ other : TokenKind, other.Spelled piece.lexeme.toList → other = piece.kind) ∨
        (∀ (kind : TokenKind) (front : List Char), front <+: rest.toList → ¬ kind.Spelled front) ∧
          piece.kind = .unmatched ∧ ∃ c, piece.lexeme = .singleton c) :=
  ⟨by decide +kernel, nextPiece?_longest "é2.5e+" 2 (by decide) (by decide)⟩

end BoardScript
