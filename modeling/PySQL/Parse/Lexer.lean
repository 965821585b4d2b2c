import PySQL.Parse.Token

/-!
# The lexer

What is left of the source and the position of its first character are passed from one method to
the next.  `_pos < len(_source)` says that something is left.
-/

namespace PySQL.Parse

/-- The character methods of `str` that the lexer uses, and what it relies on of them. -/
structure CharClasses where
  isdigit : Char → Bool
  isalpha : Char → Bool
  isalnum : Char → Bool
  upper : String → String
  repr : Char → String
  isalnum_of_isalpha : ∀ c, isalpha c = true → isalnum c = true
  isdigit_ascii : ∀ c, c.toNat < 128 → isdigit c = c.isDigit
  isalpha_ascii : ∀ c, c.toNat < 128 → isalpha c = c.isAlpha
  isalnum_ascii : ∀ c, c.toNat < 128 → isalnum c = c.isAlphanum
  upper_of_isUpper : ∀ s, (∀ c ∈ s.toList, c.isUpper = true) → upper s = s

theorem toUpper_of_isUpper {c : Char} (h : c.isUpper = true) : c.toUpper = c := by
  change decide (c.val ≥ 'A'.val ∧ c.val ≤ 'Z'.val) = true at h
  simp only [decide_eq_true_eq, ge_iff_le, UInt32.le_iff_toNat_le] at h
  have hA : 'A'.val.toNat = 65 := rfl
  have hZ : 'Z'.val.toNat = 90 := rfl
  have ha : 'a'.val.toNat = 97 := rfl
  unfold Char.toUpper
  rw [dif_neg]
  simp only [UInt32.le_iff_toNat_le]
  omega

/-- Methods that are right on ASCII texts. -/
def CharClasses.ascii : CharClasses where
  isdigit := Char.isDigit
  isalpha := Char.isAlpha
  isalnum := Char.isAlphanum
  upper s := String.ofList (s.toList.map Char.toUpper)
  repr ch := String.ofList ['\'', ch, '\'']
  isalnum_of_isalpha c h := by simp [Char.isAlphanum, h]
  isdigit_ascii _ _ := rfl
  isalpha_ascii _ _ := rfl
  isalnum_ascii _ _ := rfl
  upper_of_isUpper s h := by
    have hmap : s.toList.map Char.toUpper = s.toList.map id :=
      List.map_congr_left fun c hc => toUpper_of_isUpper (h c hc)
    rw [hmap, List.map_id, String.ofList_toList]

structure Position where
  line : ℕ := 1
  column : ℕ := 1
deriving DecidableEq, Repr

/-- The position after a character. -/
def Position.next (pos : Position) (ch : Char) : Position :=
  if ch = '\n' then { line := pos.line + 1, column := 1 }
  else { pos with column := pos.column + 1 }

/-- The position after a text. -/
def Position.after (pos : Position) (text : List Char) : Position := text.foldl Position.next pos

/-- What is left of the source, and where it begins. -/
structure Cursor where
  rest : List Char
  pos : Position

inductive LexerError where
  | lexerError (message : String) (pos : Position)
  | outOfFuel
deriving DecidableEq

def tokenAt (type : TokenType) (chars : List Char) (pos : Position) : Token :=
  { type, value := String.ofList chars, line := pos.line, column := pos.column }

def nul : Char := '\x00'

/-- `_current`: NUL at the end. -/
def currentChar (text : List Char) : Char := text.headD nul

/-- `_peek()` -/
def peekChar (text : List Char) : Char := text.tail.headD nul

/-! ## Reading on -/

/-- The characters up to the first that does not satisfy `p`. -/
def readWhile (p : Char → Bool) : List Char → Position → List Char × Cursor
  | [], pos => ([], ⟨[], pos⟩)
  | ch :: rest, pos =>
    if p ch then
      let r := readWhile p rest (pos.next ch)
      (ch :: r.1, r.2)
    else ([], ⟨ch :: rest, pos⟩)

def isWhitespace (ch : Char) : Bool := ch ∈ [' ', '\t', '\r', '\n']

def skipWhitespace (text : List Char) (pos : Position) : Cursor := (readWhile isWhitespace text pos).2

def skipLineComment (text : List Char) (pos : Position) : Cursor :=
  (readWhile (· ≠ '\n') text pos).2

/-- The loop of `_skip_block_comment`, with so many comments open. -/
def skipComments : ℕ → List Char → Position → Except LexerError Cursor
  | 0, rest, pos => .ok ⟨rest, pos⟩
  | _ + 1, [], pos => .error (.lexerError "Unterminated block comment" pos)
  | depth + 1, [ch], pos => skipComments (depth + 1) [] (pos.next ch)
  | depth + 1, ch :: ch' :: rest, pos =>
    if ch = '/' ∧ ch' = '*' then skipComments (depth + 2) rest ((pos.next ch).next ch')
    else if ch = '*' ∧ ch' = '/' then skipComments depth rest ((pos.next ch).next ch')
    else skipComments (depth + 1) (ch' :: rest) (pos.next ch)

def skipBlockComment (text : List Char) (pos : Position) : Except LexerError Cursor :=
  skipComments 1 (text.drop 2) (pos.after (text.take 2))

/-! ## Tokens -/

/-- The loop of `_read_string`: the characters of the string, if it ends. -/
def stringChars : List Char → Position → Option (List Char × Cursor)
  | [], _ => none
  | [ch], pos => if ch = '\'' then some ([], ⟨[], pos.next ch⟩) else none
  | ch :: ch' :: rest, pos =>
    if ch = '\'' then
      if ch' = '\'' then
        (stringChars rest ((pos.next ch).next ch')).map fun r => ('\'' :: r.1, r.2)
      else some ([], ⟨ch' :: rest, pos.next ch⟩)
    else (stringChars (ch' :: rest) (pos.next ch)).map fun r => (ch :: r.1, r.2)

def readString (text : List Char) (pos : Position) : Except LexerError (Token × Cursor) :=
  match stringChars text.tail (pos.next (currentChar text)) with
  | some r => .ok (tokenAt .stringLiteral r.1 pos, r.2)
  | none => .error (.lexerError "Unterminated string literal" pos)

def readQuotedIdentifier (text : List Char) (pos : Position) : Except LexerError (Token × Cursor) :=
  let r := readWhile (· ≠ '"') text.tail (pos.next (currentChar text))
  match r.2.rest with
  | [] => .error (.lexerError "Unterminated quoted identifier" pos)
  | ch :: rest => .ok (tokenAt .quotedIdentifier r.1 pos, ⟨rest, r.2.pos.next ch⟩)

/-- `_KEYWORDS` -/
def keywords : List (String × TokenType) :=
  [("SELECT", .kwSelect), ("FROM", .kwFrom), ("WHERE", .kwWhere), ("INSERT", .kwInsert),
    ("INTO", .kwInto), ("VALUES", .kwValues), ("UPDATE", .kwUpdate), ("SET", .kwSet),
    ("DELETE", .kwDelete), ("CREATE", .kwCreate), ("TABLE", .kwTable), ("DROP", .kwDrop),
    ("ALTER", .kwAlter), ("ADD", .kwAdd), ("COLUMN", .kwColumn), ("INDEX", .kwIndex), ("ON", .kwOn),
    ("PRIMARY", .kwPrimary), ("KEY", .kwKey), ("FOREIGN", .kwForeign),
    ("REFERENCES", .kwReferences), ("UNIQUE", .kwUnique), ("NOT", .kwNot), ("DEFAULT", .kwDefault),
    ("NULL", .nullLiteral), ("AND", .kwAnd), ("OR", .kwOr), ("IN", .kwIn), ("BETWEEN", .kwBetween),
    ("LIKE", .kwLike), ("IS", .kwIs), ("AS", .kwAs), ("JOIN", .kwJoin), ("INNER", .kwInner),
    ("LEFT", .kwLeft), ("RIGHT", .kwRight), ("OUTER", .kwOuter), ("CROSS", .kwCross),
    ("FULL", .kwFull), ("ORDER", .kwOrder), ("BY", .kwBy), ("ASC", .kwAsc), ("DESC", .kwDesc),
    ("GROUP", .kwGroup), ("HAVING", .kwHaving), ("LIMIT", .kwLimit), ("OFFSET", .kwOffset),
    ("DISTINCT", .kwDistinct), ("ALL", .kwAll), ("EXISTS", .kwExists), ("CASE", .kwCase),
    ("WHEN", .kwWhen), ("THEN", .kwThen), ("ELSE", .kwElse), ("END", .kwEnd), ("CAST", .kwCast),
    ("BEGIN", .kwBegin), ("COMMIT", .kwCommit), ("ROLLBACK", .kwRollback),
    ("TRANSACTION", .kwTransaction), ("IF", .kwIf), ("EXPLAIN", .kwExplain), ("UNION", .kwUnion),
    ("INTERSECT", .kwIntersect), ("EXCEPT", .kwExcept), ("TRUE", .kwTrue), ("FALSE", .kwFalse),
    ("CHECK", .kwCheck), ("CONSTRAINT", .kwConstraint), ("CASCADE", .kwCascade),
    ("RESTRICT", .kwRestrict), ("AUTOINCREMENT", .kwAutoincrement), ("COUNT", .kwCount),
    ("SUM", .kwSum), ("AVG", .kwAvg), ("MIN", .kwMin), ("MAX", .kwMax), ("USING", .kwUsing),
    ("NATURAL", .kwNatural)]

section Readers

variable (cls : CharClasses)

/-- Whether a character may stand in an identifier. -/
def isWordChar (ch : Char) : Bool := cls.isalnum ch || ch == '_'

/-- The token that a word is. -/
def wordLexeme (word : List Char) : Lexeme :=
  let upper := cls.upper (String.ofList word)
  match keywords.lookup upper with
  | some type =>
    if upper = "TRUE" then ⟨.booleanLiteral, "TRUE"⟩
    else if upper = "FALSE" then ⟨.booleanLiteral, "FALSE"⟩
    else ⟨type, upper⟩
  | none => ⟨.identifier, String.ofList word⟩

def readIdentifierOrKeyword (text : List Char) (pos : Position) : Token × Cursor :=
  let r := readWhile (isWordChar cls) text pos
  ({ toLexeme := wordLexeme cls r.1, line := pos.line, column := pos.column }, r.2)

/-- The decimal point of a number and what follows it. -/
def readFraction (text : List Char) (pos : Position) : List Char × Cursor :=
  if currentChar text = '.' ∧ cls.isdigit (peekChar text) then
    let r := readWhile cls.isdigit text.tail (pos.next (currentChar text))
    (currentChar text :: r.1, r.2)
  else ([], ⟨text, pos⟩)

def readSign (text : List Char) (pos : Position) : List Char × Cursor :=
  if currentChar text ∈ ['+', '-'] then
    ([currentChar text], ⟨text.tail, pos.next (currentChar text)⟩)
  else ([], ⟨text, pos⟩)

/-- The exponent of a number, if it is well formed. -/
def readExponent (text : List Char) (pos : Position) : Option (List Char × Cursor) :=
  if currentChar text ∈ ['e', 'E'] then
    let sign := readSign text.tail (pos.next (currentChar text))
    if cls.isdigit (currentChar sign.2.rest) then
      let r := readWhile cls.isdigit sign.2.rest sign.2.pos
      some (currentChar text :: (sign.1 ++ r.1), r.2)
    else none
  else some ([], ⟨text, pos⟩)

def readNumber (text : List Char) (pos : Position) : Except LexerError (Token × Cursor) :=
  let integer := readWhile cls.isdigit text pos
  let fraction := readFraction cls integer.2.rest integer.2.pos
  match readExponent cls fraction.2.rest fraction.2.pos with
  | some exponent =>
    let type := if fraction.1 = [] ∧ exponent.1 = [] then .integerLiteral else .floatLiteral
    .ok (tokenAt type (integer.1 ++ (fraction.1 ++ exponent.1)) pos, exponent.2)
  | none => .error (.lexerError "Invalid numeric literal" pos)

def twoCharOperator : Char → Char → Option TokenType
  | '!', '=' => some .notEquals
  | '<', '>' => some .notEquals
  | '<', '=' => some .lessEquals
  | '>', '=' => some .greaterEquals
  | '|', '|' => some .concat
  | _, _ => none

/-- `single_char_map` -/
def singleCharMap : List (Char × TokenType) :=
  [('+', .plus), ('-', .minus), ('*', .star), ('/', .slash), ('%', .percent), ('=', .equals),
    ('<', .less), ('>', .greater), ('(', .lparen), (')', .rparen), (',', .comma), (';', .semicolon),
    ('.', .dot)]

def readOperator (text : List Char) (pos : Position) : Except LexerError (Token × Cursor) :=
  let ch := currentChar text
  match twoCharOperator ch (peekChar text) with
  | some type => .ok (tokenAt type (text.take 2) pos, ⟨text.drop 2, pos.after (text.take 2)⟩)
  | none =>
    match singleCharMap.lookup ch with
    | some type => .ok (tokenAt type [ch] pos, ⟨text.tail, pos.next ch⟩)
    | none => .error (.lexerError ("Unexpected character: " ++ cls.repr ch) pos)

/-- The token at a character that is neither white space nor the start of a comment. -/
def readToken (text : List Char) (pos : Position) : Except LexerError (Token × Cursor) :=
  let ch := currentChar text
  if ch = '\'' then readString text pos
  else if cls.isdigit ch then readNumber cls text pos
  else if cls.isalpha ch ∨ ch = '_' then .ok (readIdentifierOrKeyword cls text pos)
  else if ch = '"' then readQuotedIdentifier text pos
  else readOperator cls text pos

/-- The loop of `tokenize`; each turn takes a token or a comment. -/
def tokenizeFrom : ℕ → List Char → Position → Except LexerError (List Token)
  | 0, _, _ => .error .outOfFuel
  | n + 1, text, pos =>
    let c := skipWhitespace text pos
    if c.rest = [] then .ok [tokenAt .eof [] c.pos]
    else if currentChar c.rest = '-' ∧ peekChar c.rest = '-' then
      let c' := skipLineComment c.rest c.pos
      tokenizeFrom n c'.rest c'.pos
    else if currentChar c.rest = '/' ∧ peekChar c.rest = '*' then do
      let c' ← skipBlockComment c.rest c.pos
      tokenizeFrom n c'.rest c'.pos
    else do
      let r ← readToken cls c.rest c.pos
      let tokens ← tokenizeFrom n r.2.rest r.2.pos
      return r.1 :: tokens

/-- Every turn takes a character, so this many turns are enough. -/
def tokenize (source : List Char) : Except LexerError (List Token) :=
  tokenizeFrom cls (source.length + 1) source {}

end Readers

end PySQL.Parse
