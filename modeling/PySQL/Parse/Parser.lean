import PySQL.Lib.Reader
import PySQL.Parse.Token

/-!
# The parser's state

The tokens, the position of the current one and the helpers that look at it and move on.
-/

namespace PySQL.Parse

open Lib

/-- `int` and `float` raise a ValueError; `outOfFuel` stands for a run that is not followed to its
end. -/
inductive ParserError where
  | parseError (message : String) (token : Token)
  | valueError
  | outOfFuel

/-- The text that a ParseError carries. -/
def parseErrorText (message : String) (token : Token) : String :=
  "Parse error at L" ++ toString token.line ++ ":C" ++ toString token.column ++ " near '" ++
    token.value ++ "': " ++ message

/-- The lexer ends every list of tokens with an EOF, so there is a last one. -/
structure Parser where
  tokens : List Token
  pos : ℕ
  nonempty : tokens ≠ []

namespace Parser

/-- The token so many places ahead, the last one past the end. -/
def peek (p : Parser) (offset : ℕ) : Token :=
  p.tokens.getD (p.pos + offset) (p.tokens.getLast p.nonempty)

def current (p : Parser) : Token := p.peek 0

/-- What is left to read. -/
def lexemes (p : Parser) : List Lexeme := (p.tokens.drop p.pos).map Token.toLexeme

def skip (n : ℕ) (p : Parser) : Parser := { p with pos := p.pos + n }

def tape : Tape Parser Lexeme where
  rest := lexemes
  skip := skip
  rest_skip n p := by simp [lexemes, skip, List.map_drop]
  skip_zero p := rfl
  skip_skip m n p := by simp [skip, Nat.add_assoc]

@[simp] theorem tape_rest (p : Parser) : tape.rest p = p.lexemes := rfl

@[simp] theorem tape_skip (n : ℕ) (p : Parser) : tape.skip n p = p.skip n := rfl

@[simp] theorem lexemes_skip (n : ℕ) (p : Parser) : (p.skip n).lexemes = p.lexemes.drop n :=
  tape.rest_skip n p

@[simp] theorem skip_skip (m n : ℕ) (p : Parser) : (p.skip m).skip n = p.skip (m + n) :=
  tape.skip_skip m n p

variable {p : Parser} {l l' : Lexeme} {ls : List Lexeme}

theorem peek_eq {n : ℕ} (h : p.lexemes[n]? = some l) : (p.peek n).toLexeme = l := by
  rw [lexemes, List.getElem?_map, List.getElem?_drop, Option.map_eq_some_iff] at h
  obtain ⟨t, ht, rfl⟩ := h
  rw [peek, List.getD_eq_getElem?_getD, ht]
  rfl

theorem current_eq (h : p.lexemes = l :: ls) : p.current.toLexeme = l := by
  apply peek_eq
  rw [h]
  rfl

theorem peek_mem (p : Parser) (n : ℕ) : p.peek n ∈ p.tokens := by
  rw [peek, List.getD_eq_getElem?_getD]
  cases h : p.tokens[p.pos + n]? with
  | none => exact List.getLast_mem p.nonempty
  | some t => exact List.mem_of_getElem? h

end Parser

/-! ## The helpers -/

abbrev ParserM : Type → Type := Reader Parser ParserError

def current : ParserM Token := fun p => .ok (p.current, p)

def peek (offset : ℕ) : ParserM Token := fun p => .ok (p.peek offset, p)

def advance : ParserM Token := fun p => .ok (p.current, p.skip 1)

def expect (type : TokenType) (message : String := "") : ParserM Token := do
  let token ← current
  if token.type ≠ type then
    let msg :=
      if message = "" then "Expected " ++ type.name ++ ", got " ++ token.type.name else message
    throw (.parseError msg token)
  advance

/-- `_match`: whether the current token is one of these; it is then consumed. -/
def matchToken (types : List TokenType) : ParserM Bool := do
  if (← current).type ∈ types then
    let _ ← advance
    return true
  return false

def check (types : List TokenType) : ParserM Bool := do return (← current).type ∈ types

/-- `self._current.type` -/
def currentType : ParserM TokenType := do return (← current).type

/-- `self._advance().value` -/
def advanceValue : ParserM String := do return (← advance).value

variable {p : Parser} {l : Lexeme} {ls : List Lexeme} {types : List TokenType}

theorem expect_ok (h : p.lexemes = l :: ls) (message : String) :
    expect l.type message p = .ok (p.current, p.skip 1) := by
  have hcurrent := Parser.current_eq h
  show (if p.current.type ≠ l.type then _ else advance : ParserM Token) p = _
  rw [if_neg (by rw [hcurrent]; exact fun hne => hne rfl)]
  rfl

theorem matchToken_of_mem (h : p.lexemes = l :: ls) (hl : l.type ∈ types) :
    matchToken types p = .ok (true, p.skip 1) := by
  have hcurrent := Parser.current_eq h
  show (if p.current.type ∈ types then _ else _ : ParserM Bool) p = _
  rw [if_pos (by rw [hcurrent]; exact hl)]
  rfl

theorem matchToken_of_not_mem (h : p.lexemes = l :: ls) (hl : l.type ∉ types) :
    matchToken types p = .ok (false, p) := by
  have hcurrent := Parser.current_eq h
  show (if p.current.type ∈ types then _ else _ : ParserM Bool) p = _
  rw [if_neg (by rw [hcurrent]; exact hl)]
  rfl

theorem check_eq (h : p.lexemes = l :: ls) : check types p = .ok (decide (l.type ∈ types), p) := by
  have hcurrent := Parser.current_eq h
  show Except.ok (decide (p.current.type ∈ types), p) = _
  rw [hcurrent]

theorem currentType_eq (h : p.lexemes = l :: ls) : currentType p = .ok (l.type, p) := by
  have hcurrent := Parser.current_eq h
  show Except.ok (p.current.type, p) = _
  rw [hcurrent]

theorem advanceValue_eq (h : p.lexemes = l :: ls) : advanceValue p = .ok (l.value, p.skip 1) := by
  have hcurrent := Parser.current_eq h
  show Except.ok (p.current.value, p.skip 1) = _
  rw [hcurrent]

end PySQL.Parse
