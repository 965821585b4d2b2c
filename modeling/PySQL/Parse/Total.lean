import PySQL.Parse.FollowStatement
import PySQL.Parse.Spans

/-!
# Parsing is total

`Parser(source).parse()` ends for every source, and with a LexerError or a ParseError if not with
statements, unless `int` or `float` is called on a text that it does not take.
-/

namespace PySQL.Parse

open Query

/-! ## The lexer ends -/

section Lexer

variable {cls : CharClasses} {text : List Char} {pos : Position} {tokens : List Token}

/-- A LexerError. -/
def LexerError.IsOwn (e : LexerError) : Prop := ∃ message pos, e = .lexerError message pos

theorem skipComments_error {depth : ℕ} {e : LexerError}
    (h : skipComments depth text pos = .error e) : e.IsOwn := by
  induction depth, text, pos using skipComments.induct with
  | case1 rest pos => rw [skipComments] at h; cases h
  | case2 n pos => rw [skipComments] at h; cases h; exact ⟨_, _, rfl⟩
  | case3 depth ch pos ih => rw [skipComments] at h; exact ih h
  | case4 depth ch ch' rest pos hopen ih => rw [skipComments, if_pos hopen] at h; exact ih h
  | case5 depth ch ch' rest pos hopen hclose ih =>
    rw [skipComments, if_neg hopen, if_pos hclose] at h
    exact ih h
  | case6 depth ch ch' rest pos hopen hclose ih =>
    rw [skipComments, if_neg hopen, if_neg hclose] at h
    exact ih h

theorem readToken_error {e : LexerError} (h : readToken cls text pos = .error e) : e.IsOwn := by
  unfold readToken at h
  dsimp only at h
  split at h
  · rw [readString] at h
    split at h <;> cases h
    exact ⟨_, _, rfl⟩
  split at h
  · rw [readNumber] at h
    dsimp only at h
    split at h <;> cases h
    exact ⟨_, _, rfl⟩
  split at h
  · cases h
  split at h
  · rw [readQuotedIdentifier] at h
    split at h <;> cases h
    exact ⟨_, _, rfl⟩
  · rw [readOperator] at h
    split at h
    · cases h
    · split at h <;> cases h
      exact ⟨_, _, rfl⟩

theorem Takes.length_le {w : List Char} {c : Cursor} (h : Takes text pos w c) :
    c.rest.length + w.length ≤ text.length := by
  rw [h.text_eq, List.length_append]
  omega

/-- A LexerError, or tokens: at most one for each character, and the EOF. -/
def LexerEnds (text : List Char) : Except LexerError (List Token) → Prop
  | .ok tokens => tokens.length ≤ text.length + 1
  | .error e => e.IsOwn

theorem lexerEnds_bind {α : Type} {w : List Char} {m : Except LexerError α}
    {f : α → Except LexerError (List Token)} (hm : ∀ e, m = .error e → e.IsOwn)
    (hf : ∀ a, m = .ok a → LexerEnds w (f a)) : LexerEnds w (m >>= f) := by
  cases h : m with
  | error e => exact hm e h
  | ok a => exact hf a h

/-- Every turn takes a character, so the turns suffice. -/
theorem tokenizeFrom_ends {n : ℕ} (hn : text.length < n) :
    LexerEnds text (tokenizeFrom cls n text pos) := by
  induction n generalizing text pos with
  | zero => omega
  | succ n ih =>
    have hspace := (readWhile_takes isWhitespace text pos).length_le
    have mono : ∀ {w : List Char} {out : Except LexerError (List Token)}, w.length ≤ text.length →
        LexerEnds w out → LexerEnds text out := by
      intro w out hw h
      cases out with
      | error e => exact h
      | ok tokens => exact Nat.le_trans h (by omega)
    rw [tokenizeFrom, skipWhitespace]
    dsimp only
    generalize (readWhile isWhitespace text pos).2 = c at hspace ⊢
    split
    · exact Nat.le_add_left 1 _
    split
    · next hdashes =>
      obtain ⟨r, hr⟩ := exists_of_chars hdashes (by decide) (by decide)
      obtain ⟨body, c', hc', -, htakes, -⟩ := skipLineComment_takes r c.pos
      have hlen := htakes.length_le
      rw [hr, hc']
      rw [hr] at hspace
      simp only [List.length_cons] at hlen hspace
      exact mono (by omega) (ih (by omega))
    split
    · next hopen =>
      obtain ⟨r, hr⟩ := exists_of_chars hopen (by decide) (by decide)
      rw [hr]
      rw [hr] at hspace
      refine lexerEnds_bind (fun e he => skipComments_error he) fun c' hc' => ?_
      obtain ⟨body, htakes, -⟩ := skipComments_takes hc'
      have hlen := htakes.length_le
      simp only [List.drop_succ_cons, List.drop_zero, List.length_cons] at hlen hspace
      exact mono (by omega) (ih (by omega))
    · next hne _ _ =>
      refine lexerEnds_bind (fun e he => readToken_error he) fun r hr => ?_
      obtain ⟨-, -, w, htakes, hspells⟩ := readToken_takes hne hr
      have hlen := htakes.length_le
      have hpos := List.length_pos_of_ne_nil hspells.ne_nil
      have hrest : LexerEnds r.2.rest (tokenizeFrom cls n r.2.rest r.2.pos) := ih (by omega)
      cases hrun : tokenizeFrom cls n r.2.rest r.2.pos with
      | error e =>
        rw [hrun] at hrest
        exact hrest
      | ok tokens =>
        rw [hrun] at hrest
        have hlength : tokens.length ≤ r.2.rest.length + 1 := hrest
        show tokens.length + 1 ≤ text.length + 1
        omega

theorem tokenize_ends (source : List Char) : LexerEnds source (tokenize cls source) :=
  tokenizeFrom_ends (Nat.lt_succ_self _)

/-- The last token is the EOF. -/
theorem tokenize_eof {source : List Char} (h : tokenize cls source = .ok tokens) :
    ∃ front eof, tokens = front ++ [eof] ∧ eof.type = .eof := by
  obtain ⟨pieces, lastGap, hlaid⟩ := tokenize_laidOut h
  obtain ⟨eof, heq, heof, -⟩ := hlaid.tokens_eq
  exact ⟨_, eof, heq, congrArg Lexeme.type heof⟩

theorem tokenize_ne_nil {source : List Char} (h : tokenize cls source = .ok tokens) :
    tokens ≠ [] := by
  obtain ⟨front, eof, rfl, -⟩ := tokenize_eof h
  simp

end Lexer

/-! ## The parser -/

/-- What `Parser(source).parse()` may raise. -/
inductive SourceError where
  | lexer (e : LexerError)
  | parser (e : ParserError)

/-- `Parser(source)` -/
def parserAt {cls : CharClasses} {source : List Char} {tokens : List Token}
    (h : tokenize cls source = .ok tokens) : Parser :=
  { tokens, pos := 0, nonempty := tokenize_ne_nil h }

/-- `Parser(source).parse()`.  There are fewer tokens than the fuel that is given. -/
def parseSource (cls : CharClasses) (py : Py) (source : List Char) :
    Except SourceError (List Statement) :=
  match h : tokenize cls source with
  | .error e => .error (.lexer e)
  | .ok _ =>
    match parse py (source.length + 4) (parserAt h) with
    | .error e => .error (.parser e)
    | .ok r => .ok r.1

/-- Statements, a LexerError or a ParseError. -/
def OwnOutcome : Except SourceError (List Statement) → Prop
  | .ok _ => True
  | .error (.lexer e) => e.IsOwn
  | .error (.parser e) => ∃ message token, e = .parseError message token

/-- Wherever the grammar, followed from the left along the tokens of the source, has a number as an
operand or after LIMIT or OFFSET, the text there is one that `int` or `float` takes. -/
def NumbersTaken (cls : CharClasses) (py : Py) (source : List Char) : Prop :=
  ∀ tokens, tokenize cls source = .ok tokens → ∀ number rest,
    grammar.Meets (.call .statements .done) (tokens.map Token.toLexeme) number rest →
      ¬ Refused py number rest

section Source

variable {cls : CharClasses} {py : Py} {source : List Char} {tokens : List Token}

theorem parserAt_ended (h : tokenize cls source = .ok tokens) : (parserAt h).Ended := by
  obtain ⟨front, eof, rfl, heof⟩ := tokenize_eof h
  rw [Parser.Ended, parserAt, List.getLast_append_singleton]
  exact heof

theorem parse_follows (h : tokenize cls source = .ok tokens) :
    Follows py (parserAt h) 0 plain (.call .statements .done)
      (parse py (source.length + 4) (parserAt h)) := by
  have hends : LexerEnds source (tokenize cls source) := tokenize_ends source
  rw [h] at hends
  have hlength : tokens.length ≤ source.length + 1 := hends
  apply method_parse (Nat.le_refl _) _ (parserAt_ended h)
  show ((tokens.drop 0).map Token.toLexeme).length ≤ source.length + 1
  rwa [List.length_map]

theorem parseSource_lexerError {e : LexerError} (h : tokenize cls source = .error e) :
    parseSource cls py source = .error (.lexer e) := by
  unfold parseSource
  split
  · next e' h' =>
    cases h.symm.trans h'
    rfl
  · next h' => cases h.symm.trans h'

theorem parseSource_tokens (h : tokenize cls source = .ok tokens) :
    parseSource cls py source = match parse py (source.length + 4) (parserAt h) with
      | .error e => .error (.parser e)
      | .ok r => .ok r.1 := by
  unfold parseSource
  split
  · next h' => cases h.symm.trans h'
  · next h' =>
    cases h.symm.trans h'
    rfl

/-- Parsing a source ends in statements, a LexerError or a ParseError exactly when every number that
it comes to is one that `int` or `float` takes. -/
theorem parseSource_own_iff (cls : CharClasses) (py : Py) (source : List Char) :
    OwnOutcome (parseSource cls py source) ↔ NumbersTaken cls py source := by
  have hends : LexerEnds source (tokenize cls source) := tokenize_ends source
  cases h : tokenize cls source with
  | error e =>
    rw [h] at hends
    rw [parseSource_lexerError h]
    exact iff_of_true hends fun tokens htokens => by cases h.symm.trans htokens
  | ok tokens =>
    have hcalm : NumbersTaken cls py source ↔
        (scheme py).Calm (.call .statements .done) ((scheme py).rest (parserAt h)) := by
      constructor
      · exact fun hn => hn tokens h
      · intro hc tokens' h'
        cases h.symm.trans h'
        exact hc
    rw [hcalm, parseSource_tokens h]
    have hfollows : Follows py (parserAt h) 0 plain (.call .statements .done)
        (parse py (source.length + 4) (parserAt h)) := parse_follows h
    match parse py (source.length + 4) (parserAt h), hfollows with
    | .ok r, hf => exact iff_of_true trivial hf.1.2
    | .error e, .inl ⟨he, _, hc⟩ => exact iff_of_true he hc
    | .error e, .inr ⟨he, hc⟩ =>
      refine iff_of_false ?_ hc
      rintro ⟨message, token, heq⟩
      cases he.symm.trans heq

/-- Characters as Python classifies them, for ASCII texts and the superscript two: it is a digit,
and `int` does not take it. -/
def CharClasses.superscript : CharClasses where
  isdigit c := c.isDigit || c = '²'
  isalpha := Char.isAlpha
  isalnum c := c.isAlphanum || c = '²'
  upper := CharClasses.ascii.upper
  repr := CharClasses.ascii.repr
  isalnum_of_isalpha c h := by simp [Char.isAlphanum, h]
  isdigit_ascii c h := by
    have hne : c ≠ '²' := by rintro rfl; exact absurd h (by decide)
    simp [hne]
  isalpha_ascii := CharClasses.ascii.isalpha_ascii
  isalnum_ascii c h := by
    have hne : c ≠ '²' := by rintro rfl; exact absurd h (by decide)
    simp [hne]
  upper_of_isUpper := CharClasses.ascii.upper_of_isUpper

theorem parseSource_superscript :
    ¬ OwnOutcome (parseSource .superscript Py.ascii "SELECT ²".toList) := by
  have hrun : parseSource .superscript Py.ascii "SELECT ²".toList = .error (.parser .valueError) := rfl
  rw [hrun]
  rintro ⟨message, token, h⟩
  cases h

end Source

end PySQL.Parse
