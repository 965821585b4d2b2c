import PySQL.Parse.Total

/-!
# What the parser accepts

The parser accepts a source exactly where its grammar can be followed to the end of the tokens.  The
tokens before the EOF are then a sentence of the grammar, unless the reading came to a place where
the parser is laxer than a derivation.
-/

namespace PySQL.Parse

open Lib Query

/-- The places of which the grammar of the module docstring has none: a star outside of the arguments
of a function is no operand there, a CASE has a WHEN, a name stands after a dot, and a semicolon
between two statements. -/
def Phrase.Lax : Phrase → Prop
  | .starOperand inCall => inCall = false
  | .unnamed | .danglingDot | .bareCase | .endAsName | .unseparated => True
  | _ => False

open Phrase

theorem rules_passFree {place : Phrase} (h : ¬ place.Lax) : (grammar.rules place).PassFree := by
  have hcond : ∀ (c : Bool) (r r' : Production), r.PassFree → r'.PassFree →
      (if c = true then r else r').PassFree := by
    intro c r r' hr hr'
    cases c
    · exact hr'
    · exact hr
  show (rules place).PassFree
  unfold rules
  cases place
  case unnamed | endAsName => exact absurd trivial h
  case selectItemTail column =>
    cases column <;> simp [seq, ifTok, nothing, Rule.PassFree]
  case whenClauses inCall first =>
    cases first <;> simp [seq, ifTok, tok, nothing, Rule.PassFree]
  all_goals
    simp only [Rule.PassFree, seq, tok, ifTok, ifAt, chain, nothing, primaryRule,
      plainTailRule, selectRule, columnConstraintRule, statementRule, implies_true, and_self]
  case columnConstraints => exact fun more => hcond more _ _ (fun _ => trivial) trivial
  case statements =>
    exact ⟨trivial, fun _ separated => hcond separated _ _ (fun _ => trivial)
      ⟨trivial, fun _ _ => trivial⟩⟩

/-! ## The end of the source -/

theorem lookup_ne_eof {α : Type} [BEq α] [LawfulBEq α] {table : List (α × TokenType)} {key : α}
    {type : TokenType} (htable : ∀ entry ∈ table, entry.2 ≠ .eof)
    (h : table.lookup key = some type) : type ≠ .eof := by
  obtain ⟨before, after, rfl, -⟩ := List.lookup_eq_some_iff.mp h
  exact htable (key, type) (by simp)

theorem Spells.type_ne_eof {cls : CharClasses} {l : Lexeme} {w : List Char} (h : Spells cls l w) :
    l.type ≠ .eof := by
  cases h with
  | string | quoted => exact TokenType.noConfusion
  | number ds fs es =>
    show (if fs = [] ∧ es = [] then TokenType.integerLiteral else .floatLiteral) ≠ .eof
    split <;> decide
  | word ch w =>
    rw [wordLexeme]
    split
    · next type htype =>
      split
      · decide
      split
      · decide
      · exact lookup_ne_eof (by decide) htype
    · exact TokenType.noConfusion
  | two a b type htype =>
    show type ≠ .eof
    unfold twoCharOperator at htype
    split at htype <;> cases htype <;> decide
  | one a type htype => exact lookup_ne_eof (by decide) htype

/-- There is one EOF, and it stands at the end. -/
theorem tokenize_one_eof {cls : CharClasses} {source : List Char} {tokens : List Token}
    (h : tokenize cls source = .ok tokens) : ∃ front eof, tokens = front ++ [eof] ∧
      eof.type = .eof ∧ ∀ token ∈ front, token.type ≠ .eof := by
  obtain ⟨pieces, lastGap, hlaid⟩ := tokenize_laidOut h
  obtain ⟨eof, heq, heof, -⟩ := hlaid.tokens_eq
  refine ⟨_, eof, heq, congrArg Lexeme.type heof, ?_⟩
  intro token htoken
  obtain ⟨piece, hpiece, rfl⟩ := List.mem_map.mp htoken
  exact (hlaid.spells piece hpiece).2.type_ne_eof

theorem rules_statements_endsAt :
    (grammar.rules .statements).EndsAt grammar.stop .statements := by
  apply Rule.EndsAt.stop
  apply Rule.EndsAt.call
  intro statement
  apply Rule.EndsAt.call
  intro separated
  cases separated
  · exact .stop (.call fun _ => .last _)
  · exact .last _

/-! ## Accepted sources -/

section Source

variable {cls : CharClasses} {py : Py} {source : List Char} {tokens : List Token}

theorem numbersTaken_iff (h : tokenize cls source = .ok tokens) :
    NumbersTaken cls py source ↔
      (scheme py).Calm (.call .statements .done) (tokens.map Token.toLexeme) := by
  constructor
  · exact fun hn => hn tokens h
  · intro hc tokens' h'
    cases h.symm.trans h'
    exact hc

theorem parseSource_ok_of_tokens (h : tokenize cls source = .ok tokens) :
    (∃ statements, parseSource cls py source = .ok statements) ↔
      (scheme py).Calm (.call .statements .done) (tokens.map Token.toLexeme) ∧
        ∃ rest, grammar.Reads (.call .statements .done) (tokens.map Token.toLexeme) false rest := by
  rw [parseSource_tokens h]
  have hfollows : Follows py (parserAt h) 0 plain (.call .statements .done)
      (parse py (source.length + 4) (parserAt h)) := parse_follows h
  match parse py (source.length + 4) (parserAt h), hfollows with
  | .ok r, hf => exact iff_of_true ⟨r.1, rfl⟩ ⟨hf.1.2, _, hf.1.1⟩
  | .error e, .inl ⟨_, hstuck, _⟩ =>
    refine iff_of_false ?_ ?_
    · rintro ⟨statements, hok⟩
      cases hok
    · rintro ⟨-, rest, hr⟩
      exact hstuck _ _ hr
  | .error e, .inr ⟨_, hcalm⟩ =>
    refine iff_of_false ?_ fun hc => hcalm hc.1
    rintro ⟨statements, hok⟩
    cases hok

/-- The parser gives statements exactly where the grammar reads the tokens, and `int` and `float`
take each number on the way. -/
theorem parseSource_ok_iff (cls : CharClasses) (py : Py) (source : List Char) :
    (∃ statements, parseSource cls py source = .ok statements) ↔
      NumbersTaken cls py source ∧ ∃ tokens rest, tokenize cls source = .ok tokens ∧
        grammar.Reads (.call .statements .done) (tokens.map Token.toLexeme) false rest := by
  cases h : tokenize cls source with
  | error e =>
    rw [parseSource_lexerError h]
    constructor
    · rintro ⟨statements, hok⟩
      cases hok
    · rintro ⟨-, tokens, rest, htokens, -⟩
      cases htokens
  | ok tokens =>
    rw [numbersTaken_iff h, parseSource_ok_of_tokens h]
    constructor
    · rintro ⟨hcalm, rest, hr⟩
      exact ⟨hcalm, tokens, rest, rfl, hr⟩
    · rintro ⟨hcalm, tokens', rest, htokens, hr⟩
      cases htokens
      exact ⟨hcalm, rest, hr⟩

end Source

end PySQL.Parse
