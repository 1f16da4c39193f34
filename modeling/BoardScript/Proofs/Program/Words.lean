/-
The words of a program that is written out. Each node has its words
(`Node.words`), and these are what is scanned from its text, wherever it
stands in front of a parted text (`Node.Proper.spells`): the writer
puts blanks and brackets just where two words would else run together.
-/
import BoardScript.Program.Surface
import BoardScript.Proofs.Program.Builds
import BoardScript.Proofs.Token.Spelling

namespace BoardScript

open Surface

-- =================================================================== words

/-- The token of an operator. -/
def BinaryOperator.token : BinaryOperator → TokenKind
  | .equal => .equal
  | .notEqual => .notEqual
  | .approx => .approx
  | .less => .less
  | .greater => .greater
  | .lessEqual => .lessEqual
  | .greaterEqual => .greaterEqual
  | .add => .plus
  | .subtract => .minus
  | .multiply => .star
  | .divide => .slash
  | .modulo => .percent
  | .power => .caret
  | .and => .and
  | .or => .or

def UnaryOperator.token : UnaryOperator → TokenKind
  | .negate => .minus
  | .not => .bang

def Axis.token : Axis → TokenKind
  | .x => .coordX
  | .y => .coordY

namespace Word

/-- A name, or one of the two words for coordinates. -/
def name (text : String) : Word := (.ofWord text, text)

/-- Names with commas between them. -/
def names : List Name → List Word
  | [] => []
  | [n] => [name n.text]
  | n :: rest => name n.text :: (.comma, ",") :: names rest

/-- The semicolon that ends a node where it stands as a statement. -/
def mark : Node → List Word
  | .block .. | .ifThen .. | .ifElse .. | .whileLoop .. | .forLoop .. => []
  | _ => [(.semicolon, ";")]

/-- Words between brackets. -/
def parens (words : List Word) : List Word := (.leftParen, "(") :: words ++ [(.rightParen, ")")]

def brackets (words : List Word) : List Word :=
  (.leftBracket, "[") :: words ++ [(.rightBracket, "]")]

def braces (words : List Word) : List Word :=
  (.leftBrace, "\x7b") :: words ++ [(.rightBrace, "\x7d")]

def object (words : List Word) : List Word :=
  (.objectOpen, "<<") :: words ++ [(.objectClose, ">>")]

end Word

open Word in
mutual

/-- The words of a node, without its semicolon. -/
def Node.words : Node → List Word
  | .block statements _ => braces (wordsLines statements)
  | .assign n value _ => name n.text :: (.assign, "=") :: value.words
  | .assignProperty owner n value _ =>
      owner.words ++ (.dot, ".") :: name n.text :: (.assign, "=") :: value.words
  | .assignIndex base index value _ =>
      base.words ++ brackets index.words ++ (.assign, "=") :: value.words
  | .ifThen condition yes _ =>
      (.ifWord, "if") :: parens condition.words ++
        if yes.isBlock then yes.words else braces (yes.words ++ Word.mark yes)
  | .ifElse condition yes no _ =>
      (.ifWord, "if") :: parens condition.words ++
        (if yes.isBlock then yes.words else braces (yes.words ++ Word.mark yes)) ++
        (.elseWord, "else") ::
        if no.isBlock then no.words else braces (no.words ++ Word.mark no)
  | .conditional condition yes no _ =>
      parens (condition.words ++ (.question, "?") :: yes.words ++ (.colon, ":") :: no.words)
  | .whileLoop condition body _ =>
      (.whileWord, "while") :: parens condition.words ++
        if body.isBlock then body.words else braces (body.words ++ Word.mark body)
  | .doLoop body condition _ =>
      (.doWord, "do") :: (if body.isBlock then body.words
        else braces (body.words ++ Word.mark body)) ++
        (.whileWord, "while") :: parens condition.words
  | .forLoop init condition step body _ =>
      (.forWord, "for") :: parens (init.words ++ (.semicolon, ";") :: condition.words ++
        (.semicolon, ";") :: step.words) ++
        if body.isBlock then body.words else braces (body.words ++ Word.mark body)
  | .useBoard n _ => [(.useWord, "use"), name n.text]
  | .delete operand _ => (.deleteWord, "delete") :: operand.words
  | .returnNothing _ => [(.returnWord, "return")]
  | .returnValue value _ => (.returnWord, "return") :: value.words
  | .expression value _ => value.words
  | .function params body _ _ =>
      (.functionWord, "function") :: parens (names params) ++
        if body.isBlock then body.words else braces (body.words ++ Word.mark body)
  | .map params body _ _ =>
      parens ((.mapWord, "map") :: parens (names params) ++ (.arrow, "->") :: body.words)
  | .call callee args _ => callee.words ++ parens (wordsList args)
  | .callWith callee args attributes _ =>
      callee.words ++ parens (wordsList args) ++ object (wordsProperties attributes)
  | .array items _ => brackets (wordsList items)
  | .object properties _ => object (wordsProperties properties)
  | .index base index _ => base.words ++ brackets index.words
  | .binary operator left right _ =>
      parens (left.words ++ (operator.token, operator.text) :: right.words)
  | .unary operator operand _ => parens ((operator.token, operator.text) :: operand.words)
  | .identifier text _ => [name text]
  | .numeral text kind _ => [(kind.token, text)]
  | .string value _ => [(.string, Literal.quote value)]
  | .boolean value _ => [if value then (.trueWord, "true") else (.falseWord, "false")]
  | .coordinate axis operand _ => (axis.token, axis.text) :: parens operand.words
  | .property owner n _ => owner.words ++ [(.dot, "."), name n.text]

/-- The words of statements. -/
def wordsLines : List Node → List Word
  | [] => []
  | node :: rest => node.words ++ Word.mark node ++ wordsLines rest

/-- The words of expressions with commas between them. -/
def wordsList : List Node → List Word
  | [] => []
  | [node] => node.words
  | node :: rest => node.words ++ (.comma, ",") :: wordsList rest

/-- The words of properties with commas between them. -/
def wordsProperties : List Property → List Word
  | [] => []
  | [.mk n value] => name n.text :: (.colon, ":") :: value.words
  | .mk n value :: rest =>
      name n.text :: (.colon, ":") :: value.words ++ (.comma, ",") :: wordsProperties rest

end

-- ================================================================ spelling

-- The words of the writer are known letter by letter.
attribute [local simp] parting isWordStart isWordPart operatorOf operatorOfPair beginsPair
  TokenKind.ofWord_eq_iff TokenKind.keywords

section

variable {rest : List Char}

theorem spell_margin (level : Nat) : spell ((margin level).toList ++ rest) = spell rest := by
  induction level with
  | zero => rfl
  | succ level ih =>
      have hmargin : margin (level + 1) = "    " ++ margin level := by
        rw [margin, List.replicate_succ, String.join_cons, margin]
      simp [hmargin, ih]

theorem spell_mark (node : Node) :
    spell ((mark node).toList ++ rest) = Word.mark node ++ spell rest := by
  cases node <;> simp [mark, Word.mark]

theorem spell_binary (operator : BinaryOperator) (h : Parted rest) :
    spell (operator.text.toList ++ rest) = (operator.token, operator.text) :: spell rest := by
  refine spell_lexical operator.text ?_ (by cases operator <;> decide) h
  cases operator with
  | less => exact ⟨.opening '<', by decide, rfl, rfl⟩
  | greater => exact ⟨.opening '>', by decide, rfl, rfl⟩
  | subtract => exact ⟨.opening '-', by decide, rfl, rfl⟩
  | _ => exact ⟨.operator _, by decide, rfl, rfl⟩

theorem exists_of_propertyName {text : String} (h : Lexicon.PropertyName Lexical text) :
    ∃ kind, (kind = .identifier ∨ kind = .coordX ∨ kind = .coordY) ∧ Lexical kind text := by
  rcases h with h | h | h
  · exact ⟨_, .inl rfl, h⟩
  · exact ⟨_, .inr (.inl rfl), h⟩
  · exact ⟨_, .inr (.inr rfl), h⟩

theorem spell_name {text : String} (h : Lexicon.PropertyName Lexical text) (hrest : Parted rest) :
    spell (text.toList ++ rest) = Word.name text :: spell rest := by
  obtain ⟨kind, hkind, h⟩ := exists_of_propertyName h
  rw [Word.name, (h.name hkind).1]
  exact spell_lexical text h (by rcases hkind with rfl | rfl | rfl <;> decide) hrest

/-- A name behind a dot ends what is in front of it. -/
theorem parted_property {text : String} (h : Lexicon.PropertyName Lexical text)
    (rest : List Char) : Parted ('.' :: (text.toList ++ rest)) := by
  obtain ⟨kind, hkind, h⟩ := exists_of_propertyName h
  obtain ⟨c, others, htext, hc⟩ := (h.name hkind).2
  rw [htext]
  exact parted_dot hc _

theorem spell_property {text : String} (h : Lexicon.PropertyName Lexical text)
    (hrest : Parted rest) :
    spell ('.' :: (text.toList ++ rest)) = (.dot, ".") :: Word.name text :: spell rest := by
  rw [← spell_name h hrest]
  obtain ⟨kind, hkind, h⟩ := exists_of_propertyName h
  obtain ⟨c, others, htext, hc⟩ := (h.name hkind).2
  rw [htext]
  exact spell_dot hc

theorem spell_names {params : List Name} (h : ∀ n ∈ params, Lexical .identifier n.text)
    (hrest : Parted rest) :
    spell ((", ".intercalate (params.map Name.text)).toList ++ rest)
      = Word.names params ++ spell rest := by
  induction params with
  | nil => rfl
  | cons n params ih =>
      have hn : Lexicon.PropertyName Lexical n.text := .inl (h n List.mem_cons_self)
      have ih := ih fun n hn => h n (List.mem_cons_of_mem _ hn)
      cases params with
      | nil => simpa [Word.names] using spell_name hn hrest
      | cons next params =>
          rw [List.map_cons, List.map_cons, String.intercalate_cons_cons, ← List.map_cons]
          simp [Word.names, spell_name hn, ih, -String.toList_intercalate, -List.map_cons]

end

/-- The text of a node is scanned to its words. -/
def Node.Spells (node : Node) : Prop :=
  ∀ level rest, Parted rest → spell ((node.surface level).toList ++ rest) = node.words ++ spell rest

/-- A text that no operator in front of it goes on with. -/
def Apart : List Char → Prop
  | [] => False
  | c :: _ => c ≠ '=' ∧ c ≠ '>'

@[simp] theorem apart_cons {c : Char} {rest : List Char} :
    Apart (c :: rest) ↔ c ≠ '=' ∧ c ≠ '>' := Iff.rfl

theorem Apart.append {text : List Char} (h : Apart text) (rest : List Char) :
    Apart (text ++ rest) := by
  cases text with
  | nil => cases h
  | cons c text => exact h

theorem apart_lexical {kind : TokenKind} {text : String} (h : Lexical kind text)
    (hfree : kind.isFree = true) : Apart text.toList := by
  obtain ⟨c, rest, htext, hc⟩ := h.begins hfree
  rw [htext]
  exact hc

theorem spell_unary (operator : UnaryOperator) {text : List Char} (h : Apart text) :
    spell (operator.text.toList ++ text) = (operator.token, operator.text) :: spell text := by
  cases text with
  | nil => cases h
  | cons c rest =>
      cases operator with
      | negate => exact spell_minus h.2
      | not => exact spell_bang h.1

section

theorem spells_lines {nodes : List Node} (h : ∀ node ∈ nodes, node.Spells) (level : Nat)
    (rest : List Char) :
    spell ((surfaceLines level nodes).toList ++ rest) = wordsLines nodes ++ spell rest := by
  induction nodes with
  | nil => simp [surfaceLines, wordsLines]
  | cons node nodes ih =>
      have hnode := h node List.mem_cons_self level
      have ih := ih fun n hn => h n (List.mem_cons_of_mem _ hn)
      have hmark (rest : List Char) : Parted ((mark node).toList ++ '\n' :: rest) := by
        cases node <;> simp [mark]
      simp [surfaceLines, wordsLines, line, spell_margin, hnode _ (hmark _), spell_mark, ih]

theorem spells_list {nodes : List Node} (h : ∀ node ∈ nodes, node.Spells) (level : Nat)
    {rest : List Char} (hrest : Parted rest) :
    spell ((surfaceList level nodes).toList ++ rest) = wordsList nodes ++ spell rest := by
  induction nodes with
  | nil => simp [surfaceList, wordsList]
  | cons node nodes ih =>
      have hnode := h node List.mem_cons_self level
      have ih := ih fun n hn => h n (List.mem_cons_of_mem _ hn)
      cases nodes with
      | nil => simp [surfaceList, wordsList, hnode _ hrest]
      | cons next nodes => simp [surfaceList, wordsList, hnode, ih]

theorem spells_properties {properties : List Property}
    (h : ∀ p ∈ properties, Lexical .identifier p.name.text ∧ p.value.Spells) (level : Nat)
    {rest : List Char} (hrest : Parted rest) :
    spell ((surfaceProperties level properties).toList ++ rest)
      = wordsProperties properties ++ spell rest := by
  induction properties with
  | nil => simp [surfaceProperties, wordsProperties]
  | cons p properties ih =>
      obtain ⟨n, value⟩ := p
      have hname : Lexicon.PropertyName Lexical n.text := .inl (h (.mk n value) List.mem_cons_self).1
      have hvalue := (h (.mk n value) List.mem_cons_self).2 level
      simp only [Property.value] at hvalue
      have ih := ih fun p hp => h p (List.mem_cons_of_mem _ hp)
      cases properties with
      | nil => simp [surfaceProperties, wordsProperties, spell_name hname, hvalue _ hrest]
      | cons next properties =>
          simp [surfaceProperties, wordsProperties, spell_name hname, hvalue, ih]

/-- A body is written in braces. -/
theorem spells_body {body : Node} (h : body.Spells) (level : Nat) {rest : List Char}
    (hrest : Parted rest) :
    spell ((if body.isBlock then body.surface level
        else braces level (line (level + 1) body (body.surface (level + 1)))).toList ++ rest)
      = (if body.isBlock then body.words else Word.braces (body.words ++ Word.mark body)) ++
          spell rest := by
  split
  · exact h level rest hrest
  · have hlines := spells_lines (List.forall_mem_singleton.2 h) (level + 1)
    simp only [surfaceLines, wordsLines, String.append_empty, List.append_nil] at hlines
    simp [braces, Word.braces, hlines, spell_margin]

end

/-- An expression begins with a name, a numeral, a string or a bracket. -/
theorem Node.Proper.begins {node : Node} (h : node.Proper Lexical)
    (hexpr : node.isExpression = true) (level : Nat) : Apart (node.surface level).toList := by
  induction h with
  | @intro node here parts ih =>
  cases node with
  | identifier n span => exact apart_lexical here rfl
  | numeral text kind span => exact apart_lexical here (by cases kind <;> rfl)
  | string value span => simp [Node.surface, Literal.quote]
  | boolean value span => cases value <;> simp [Node.surface]
  | coordinate axis operand span => cases axis <;> simp [Node.surface, Axis.text]
  | call callee args span =>
      simpa [Node.surface] using (ih callee (by simp [Node.children]) here.1).append _
  | callWith callee args attributes span =>
      simpa [Node.surface] using (ih callee (by simp [Node.children]) here.1).append _
  | index base place span =>
      simpa [Node.surface] using (ih base (by simp [Node.children]) here.1).append _
  | property owner n span =>
      simpa [Node.surface] using (ih owner (by simp [Node.children]) here.1).append _
  | function | map | array | object | conditional | binary | unary => simp [Node.surface]
  | _ => cases hexpr

theorem Node.Proper.spells {node : Node} (h : node.Proper Lexical) : node.Spells := by
  induction h with
  | @intro node here parts ih =>
  intro level rest hrest
  cases node with
  | block statements span =>
      have hlines := spells_lines (show ∀ node ∈ statements, node.Spells from ih)
      simp [Node.surface, Node.words, braces, Word.braces, hlines, spell_margin]
  | assign n value span =>
      have hname : Lexicon.PropertyName Lexical n.text := .inl here.1
      have hvalue := ih value (by simp [Node.children]) level
      simp [Node.surface, Node.words, spell_name hname, hvalue _ hrest]
  | assignProperty owner n value span =>
      have howner := ih owner (by simp [Node.children]) level
      have hvalue := ih value (by simp [Node.children]) level
      simp [Node.surface, Node.words, howner _ (parted_property here.2.1 _),
        spell_property here.2.1, hvalue _ hrest]
  | assignIndex base place value span =>
      have hbase := ih base (by simp [Node.children]) level
      have hplace := ih place (by simp [Node.children]) level
      have hvalue := ih value (by simp [Node.children]) level
      simp [Node.surface, Node.words, Word.brackets, hbase, hplace, hvalue _ hrest]
  | ifThen condition yes span =>
      have hcondition := ih condition (by simp [Node.children]) level
      have hyes := ih yes (by simp [Node.children])
      simp only [Node.surface, Node.words, Word.parens, String.toList_append, List.append_assoc]
      simp [hcondition, spells_body hyes _ hrest]
  | ifElse condition yes no span =>
      have hcondition := ih condition (by simp [Node.children]) level
      have hyes := ih yes (by simp [Node.children])
      have hno := ih no (by simp [Node.children])
      simp only [Node.surface, Node.words, Word.parens, String.toList_append, List.append_assoc]
      simp [hcondition, spells_body hyes, spells_body hno _ hrest]
  | conditional condition yes no span =>
      have hcondition := ih condition (by simp [Node.children]) level
      have hyes := ih yes (by simp [Node.children]) level
      have hno := ih no (by simp [Node.children]) level
      simp [Node.surface, Node.words, Word.parens, hcondition, hyes, hno]
  | whileLoop condition body span =>
      have hcondition := ih condition (by simp [Node.children]) level
      have hbody := ih body (by simp [Node.children])
      simp only [Node.surface, Node.words, Word.parens, String.toList_append, List.append_assoc]
      simp [hcondition, spells_body hbody _ hrest]
  | doLoop body condition span =>
      have hcondition := ih condition (by simp [Node.children]) level
      have hbody := ih body (by simp [Node.children])
      simp only [Node.surface, Node.words, Word.parens, String.toList_append, List.append_assoc]
      simp [hcondition, spells_body hbody]
  | forLoop init condition step body span =>
      have hinit := ih init (by simp [Node.children]) level
      have hcondition := ih condition (by simp [Node.children]) level
      have hstep := ih step (by simp [Node.children]) level
      have hbody := ih body (by simp [Node.children])
      simp only [Node.surface, Node.words, Word.parens, String.toList_append, List.append_assoc]
      simp [hinit, hcondition, hstep, spells_body hbody _ hrest]
  | useBoard n span =>
      have hname : Lexicon.PropertyName Lexical n.text := .inl here
      simp [Node.surface, Node.words, spell_name hname hrest]
  | delete operand span =>
      have hoperand := ih operand (by simp [Node.children]) level
      simp [Node.surface, Node.words, hoperand _ hrest]
  | returnNothing span => simp [Node.surface, Node.words, hrest]
  | returnValue value span =>
      have hvalue := ih value (by simp [Node.children]) level
      simp [Node.surface, Node.words, hvalue _ hrest]
  | expression value span =>
      have hvalue := ih value (by simp [Node.children]) level
      simp [Node.surface, Node.words, hvalue _ hrest]
  | function params body literal span =>
      have hbody := ih body (by simp [Node.children])
      simp only [Node.surface, Node.words, Word.parens, String.toList_append, List.append_assoc]
      simp [spell_names here.1, spells_body hbody _ hrest, -String.toList_intercalate]
  | map params body literal span =>
      have hbody := ih body (by simp [Node.children]) level
      simp [Node.surface, Node.words, Word.parens, spell_names here.1, hbody,
        -String.toList_intercalate]
  | call callee args span =>
      have hcallee := ih callee (by simp [Node.children]) level
      have hargs : ∀ arg ∈ args, arg.Spells := fun arg harg => ih arg (by simp [Node.children, harg])
      simp [Node.surface, Node.words, Word.parens, hcallee, spells_list hargs]
  | callWith callee args attributes span =>
      have hcallee := ih callee (by simp [Node.children]) level
      have hargs : ∀ arg ∈ args, arg.Spells := fun arg harg => ih arg (by simp [Node.children, harg])
      have hattributes : ∀ p ∈ attributes, Lexical .identifier p.name.text ∧ p.value.Spells := by
        intro p hp
        refine ⟨(here.2.2 p hp).1, ih p.value ?_⟩
        exact List.mem_append_right _ (List.mem_map_of_mem hp)
      simp [Node.surface, Node.words, Word.parens, Word.object, hcallee, spells_list hargs,
        spells_properties hattributes]
  | array items span =>
      have hitems : ∀ item ∈ items, item.Spells := ih
      simp [Node.surface, Node.words, Word.brackets, spells_list hitems]
  | object properties span =>
      have hproperties : ∀ p ∈ properties, Lexical .identifier p.name.text ∧ p.value.Spells :=
        fun p hp => ⟨(here p hp).1, ih p.value (List.mem_map_of_mem hp)⟩
      simp [Node.surface, Node.words, Word.object, spells_properties hproperties]
  | index base place span =>
      have hbase := ih base (by simp [Node.children]) level
      have hplace := ih place (by simp [Node.children]) level
      simp [Node.surface, Node.words, Word.brackets, hbase, hplace]
  | binary operator left right span =>
      have hleft := ih left (by simp [Node.children]) level
      have hright := ih right (by simp [Node.children]) level
      simp [Node.surface, Node.words, Word.parens, hleft, spell_binary, hright]
  | unary operator operand span =>
      have hoperand := ih operand (by simp [Node.children]) level
      have hapart := (parts operand (by simp [Node.children])).begins here level
      simp [Node.surface, Node.words, Word.parens, spell_unary operator (hapart.append _), hoperand]
  | identifier text span => exact spell_name (.inl here) hrest
  | numeral text kind span =>
      exact spell_lexical text here (by cases kind <;> decide) hrest
  | string value span => exact spell_lexical _ (lexical_quote value) (by decide) hrest
  | boolean value span => cases value <;> simp [Node.surface, Node.words, hrest]
  | coordinate axis operand span =>
      have hoperand := ih operand (by simp [Node.children]) level
      cases axis <;> simp [Node.surface, Node.words, Word.parens, Axis.text, Axis.token, hoperand]
  | property owner n span =>
      have howner := ih owner (by simp [Node.children]) level
      simp [Node.surface, Node.words, howner _ (parted_property here.2 _),
        spell_property here.2 hrest]

end BoardScript
