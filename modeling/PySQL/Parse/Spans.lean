import Mathlib.Data.List.Induction
import Mathlib.Tactic
import PySQL.Lib.Fallible
import PySQL.Parse.Lexer

/-!
# Where the tokens lie

The tokens of a source text spell disjoint pieces of it, and what lies between the pieces is white
space and comments.
-/

namespace PySQL.Parse

open Lib

/-! ## Lines and columns -/

/-- The line of the character after a text. -/
def lineAt (before : List Char) : ℕ := 1 + before.count '\n'

/-- The column of the character after a text: it counts from the last newline. -/
def columnAt (before : List Char) : ℕ := 1 + (before.reverse.takeWhile (· ≠ '\n')).length

theorem Position.after_append (pos : Position) (w v : List Char) :
    pos.after (w ++ v) = (pos.after w).after v :=
  List.foldl_append

theorem Position.after_cons (pos : Position) (ch : Char) (w : List Char) :
    pos.after (ch :: w) = (pos.next ch).after w := rfl

theorem Position.after_start (before : List Char) :
    ({} : Position).after before = { line := lineAt before, column := columnAt before } := by
  induction before using List.reverseRecOn with
  | nil => rfl
  | append_singleton before ch ih =>
    rw [Position.after_append, ih]
    show Position.next _ ch = _
    by_cases hch : ch = '\n'
    · subst hch
      simp [Position.next, lineAt, columnAt]
      omega
    · simp [Position.next, lineAt, columnAt, hch]
      omega

/-! ## What a piece of text spells -/

def doubleQuotes : List Char → List Char
  | [] => []
  | ch :: chars =>
    if ch = '\'' then '\'' :: '\'' :: doubleQuotes chars else ch :: doubleQuotes chars

/-- A string literal: every quote in it is doubled. -/
def quoteString (chars : List Char) : List Char := '\'' :: (doubleQuotes chars ++ ['\''])

section Spelling

variable (cls : CharClasses)

/-- One digit or more. -/
def Digits (ds : List Char) : Prop := ds ≠ [] ∧ ∀ d ∈ ds, cls.isdigit d = true

inductive Fraction : List Char → Prop where
  | none : Fraction []
  | some (ds : List Char) : Digits cls ds → Fraction ('.' :: ds)

inductive Exponent : List Char → Prop where
  | none : Exponent []
  | some (e : Char) (sign ds : List Char) : e ∈ ['e', 'E'] → sign ∈ [[], ['+'], ['-']] →
      Digits cls ds → Exponent (e :: (sign ++ ds))

/-- The text is one token. -/
inductive Spells : Lexeme → List Char → Prop where
  | string (chars : List Char) : Spells ⟨.stringLiteral, String.ofList chars⟩ (quoteString chars)
  | number (ds fs es : List Char) : Digits cls ds → Fraction cls fs → Exponent cls es →
      Spells ⟨if fs = [] ∧ es = [] then .integerLiteral else .floatLiteral,
        String.ofList (ds ++ (fs ++ es))⟩ (ds ++ (fs ++ es))
  | word (ch : Char) (w : List Char) : cls.isdigit ch = false → (cls.isalpha ch = true ∨ ch = '_') →
      (∀ d ∈ w, isWordChar cls d = true) → Spells (wordLexeme cls (ch :: w)) (ch :: w)
  | quoted (chars : List Char) : '"' ∉ chars →
      Spells ⟨.quotedIdentifier, String.ofList chars⟩ ('"' :: (chars ++ ['"']))
  | two (a b : Char) (type : TokenType) : twoCharOperator a b = some type →
      Spells ⟨type, String.ofList [a, b]⟩ [a, b]
  | one (a : Char) (type : TokenType) : singleCharMap.lookup a = some type →
      Spells ⟨type, String.ofList [a]⟩ [a]

end Spelling

/-! ## Gaps -/

/-- The rest of a block comment in which so many comments are open. -/
inductive Comment : ℕ → List Char → Prop where
  | done : Comment 0 []
  | opened (depth : ℕ) (w : List Char) : Comment (depth + 2) w → Comment (depth + 1) ('/' :: '*' :: w)
  | closed (depth : ℕ) (w : List Char) : Comment depth w → Comment (depth + 1) ('*' :: '/' :: w)
  | char (depth : ℕ) (ch : Char) (w : List Char) : ¬ (ch = '/' ∧ currentChar w = '*') →
      ¬ (ch = '*' ∧ currentChar w = '/') → Comment (depth + 1) w → Comment (depth + 1) (ch :: w)

/-- White space and comments; a line comment ends with its line, or with the source. -/
inductive Gap : Bool → List Char → Prop where
  | nil (last : Bool) : Gap last []
  | space (last : Bool) (ch : Char) (w : List Char) : ch ∈ [' ', '\t', '\r', '\n'] → Gap last w →
      Gap last (ch :: w)
  | line (last : Bool) (body w : List Char) : '\n' ∉ body → Gap last w →
      Gap last ('-' :: '-' :: (body ++ '\n' :: w))
  | lastLine (body : List Char) : '\n' ∉ body → Gap true ('-' :: '-' :: body)
  | block (last : Bool) (body w : List Char) : Comment 1 body → Gap last w →
      Gap last ('/' :: '*' :: (body ++ w))

/-! ## What the readers take -/

/-- The word is taken from the text. -/
structure Takes (text : List Char) (pos : Position) (w : List Char) (c : Cursor) : Prop where
  text_eq : text = w ++ c.rest
  pos_eq : c.pos = pos.after w

section Takes

variable {text w v : List Char} {pos : Position} {c c' : Cursor} {ch : Char} {p : Char → Bool}

theorem Takes.nil : Takes text pos [] ⟨text, pos⟩ := ⟨rfl, rfl⟩

theorem Takes.cons (h : Takes text (pos.next ch) w c) : Takes (ch :: text) pos (ch :: w) c :=
  ⟨by rw [h.text_eq, List.cons_append], h.pos_eq⟩

theorem Takes.append (h : Takes text pos w c) (h' : Takes c.rest c.pos v c') :
    Takes text pos (w ++ v) c' :=
  ⟨by rw [h.text_eq, h'.text_eq, List.append_assoc], by
    rw [h'.pos_eq, h.pos_eq, Position.after_append]⟩

theorem readWhile_takes (p : Char → Bool) (text : List Char) (pos : Position) :
    Takes text pos (readWhile p text pos).1 (readWhile p text pos).2 := by
  induction text generalizing pos with
  | nil => exact .nil
  | cons ch text ih =>
    rw [readWhile]
    split
    · exact (ih (pos.next ch)).cons
    · exact .nil

theorem readWhile_all (p : Char → Bool) (text : List Char) (pos : Position) :
    ∀ ch ∈ (readWhile p text pos).1, p ch = true := by
  induction text generalizing pos with
  | nil => exact fun ch h => absurd h List.not_mem_nil
  | cons ch text ih =>
    rw [readWhile]
    split
    · next hch =>
      intro d hd
      rcases List.mem_cons.mp hd with rfl | hd
      · exact hch
      · exact ih _ d hd
    · exact fun ch h => absurd h List.not_mem_nil

/-- What is left begins with a character that does not satisfy `p`. -/
theorem readWhile_rest (p : Char → Bool) (text : List Char) (pos : Position) :
    ∀ ch rest, (readWhile p text pos).2.rest = ch :: rest → p ch = false := by
  induction text generalizing pos with
  | nil =>
    intro ch rest h
    cases h
  | cons ch text ih =>
    rw [readWhile]
    split
    · exact ih _
    · next hch =>
      rintro d rest ⟨⟩
      simpa using hch

theorem readWhile_ne_nil (h : p (currentChar text) = true) (hne : text ≠ []) :
    (readWhile p text pos).1 ≠ [] := by
  cases text with
  | nil => exact absurd rfl hne
  | cons ch text =>
    have hch : p ch = true := h
    rw [readWhile, if_pos hch]
    exact List.cons_ne_nil _ _

theorem stringChars_takes {chars : List Char} (h : stringChars text pos = some (chars, c)) :
    Takes text pos (doubleQuotes chars ++ ['\'']) c := by
  induction text, pos using stringChars.induct generalizing chars c with
  | case1 pos => cases h
  | case2 pos =>
    cases h
    exact Takes.nil.cons
  | case3 ch pos hch =>
    rw [stringChars, if_neg hch] at h
    cases h
  | case4 rest pos ih =>
    rw [stringChars, if_pos rfl, if_pos rfl, Option.map_eq_some_iff] at h
    obtain ⟨r, hr, heq⟩ := h
    cases heq
    rw [doubleQuotes, if_pos rfl]
    exact (ih hr).cons.cons
  | case5 ch' rest pos hch' =>
    rw [stringChars, if_pos rfl, if_neg hch'] at h
    cases h
    exact Takes.nil.cons
  | case6 ch ch' rest pos hch ih =>
    rw [stringChars, if_neg hch, Option.map_eq_some_iff] at h
    obtain ⟨r, hr, heq⟩ := h
    cases heq
    rw [doubleQuotes, if_neg hch]
    exact (ih hr).cons

theorem Comment.ne_nil {depth : ℕ} (h : Comment (depth + 1) w) : w ≠ [] := by
  cases h <;> exact List.cons_ne_nil _ _

theorem skipComments_takes {depth : ℕ} (h : skipComments depth text pos = .ok c) :
    ∃ w, Takes text pos w c ∧ Comment depth w := by
  induction depth, text, pos using skipComments.induct generalizing c with
  | case1 rest pos =>
    rw [skipComments] at h
    cases h
    exact ⟨[], .nil, .done⟩
  | case2 n pos =>
    rw [skipComments] at h
    cases h
  | case3 depth ch pos ih =>
    rw [skipComments, skipComments] at h
    cases h
  | case4 depth ch ch' rest pos hopen ih =>
    rw [skipComments, if_pos hopen] at h
    obtain ⟨w, hw, hcomment⟩ := ih h
    obtain ⟨rfl, rfl⟩ := hopen
    exact ⟨_, hw.cons.cons, .opened depth w hcomment⟩
  | case5 depth ch ch' rest pos hopen hclose ih =>
    rw [skipComments, if_neg hopen, if_pos hclose] at h
    obtain ⟨w, hw, hcomment⟩ := ih h
    obtain ⟨rfl, rfl⟩ := hclose
    exact ⟨_, hw.cons.cons, .closed depth w hcomment⟩
  | case6 depth ch ch' rest pos hopen hclose ih =>
    rw [skipComments, if_neg hopen, if_neg hclose] at h
    obtain ⟨w, hw, hcomment⟩ := ih h
    -- the comment is not over, so the next character belongs to it
    obtain ⟨u, v, rfl⟩ := List.exists_cons_of_ne_nil hcomment.ne_nil
    obtain rfl : ch' = u := (List.cons.inj hw.text_eq).1
    exact ⟨_, hw.cons, .char depth ch _ hopen hclose hcomment⟩

end Takes

section Tokens

variable {cls : CharClasses} {text : List Char} {pos : Position} {token : Token} {c : Cursor}

/-- The token is spelled by the word that is taken and has the position in front of it. -/
def TakesToken (cls : CharClasses) (text : List Char) (pos : Position) (token : Token) (c : Cursor) :
    Prop :=
  token.line = pos.line ∧ token.column = pos.column ∧
    ∃ w, Takes text pos w c ∧ Spells cls token.toLexeme w

theorem readString_takes {rest : List Char} (h : readString ('\'' :: rest) pos = .ok (token, c)) :
    TakesToken cls ('\'' :: rest) pos token c := by
  rw [readString] at h
  split at h
  · next r hr =>
    cases h
    exact ⟨rfl, rfl, _, (stringChars_takes hr).cons, .string r.1⟩
  · cases h

theorem readQuotedIdentifier_takes {rest : List Char}
    (h : readQuotedIdentifier ('"' :: rest) pos = .ok (token, c)) :
    TakesToken cls ('"' :: rest) pos token c := by
  rw [readQuotedIdentifier] at h
  have htakes := readWhile_takes (· ≠ '"') rest (pos.next '"')
  have hall := readWhile_all (· ≠ '"') rest (pos.next '"')
  have hrest := readWhile_rest (· ≠ '"') rest (pos.next '"')
  simp only [currentChar, List.headD_cons, List.tail_cons] at h
  split at h
  · cases h
  · next ch tail heq =>
    cases h
    obtain rfl : ch = '"' := by simpa using hrest ch tail heq
    refine ⟨rfl, rfl, _, ?_, .quoted _ fun hmem => by simpa using hall _ hmem⟩
    refine (htakes.append ?_).cons
    rw [heq]
    exact Takes.nil.cons

theorem readIdentifierOrKeyword_takes {ch : Char} {rest : List Char} (hdigit : cls.isdigit ch = false)
    (hch : cls.isalpha ch = true ∨ ch = '_') :
    TakesToken cls (ch :: rest) pos (readIdentifierOrKeyword cls (ch :: rest) pos).1
      (readIdentifierOrKeyword cls (ch :: rest) pos).2 := by
  have hword : isWordChar cls ch = true := by
    rcases hch with hch | rfl
    · simp [isWordChar, cls.isalnum_of_isalpha ch hch]
    · simp [isWordChar]
  have htakes := readWhile_takes (isWordChar cls) rest (pos.next ch)
  have hall := readWhile_all (isWordChar cls) rest (pos.next ch)
  rw [readIdentifierOrKeyword, readWhile, if_pos hword]
  exact ⟨rfl, rfl, _, htakes.cons, .word ch _ hdigit hch hall⟩

theorem ne_nil_of_isdigit (h : cls.isdigit (currentChar text) = true) : text ≠ [] := by
  rintro rfl
  rw [cls.isdigit_ascii _ (by decide)] at h
  exact absurd h (by decide)

theorem readFraction_takes (text : List Char) (pos : Position) :
    Takes text pos (readFraction cls text pos).1 (readFraction cls text pos).2 ∧
      Fraction cls (readFraction cls text pos).1 := by
  rw [readFraction]
  split
  · next h =>
    obtain ⟨hdot, hdigit⟩ := h
    cases text with
    | nil => exact absurd hdot (by decide)
    | cons ch rest =>
      obtain rfl : ch = '.' := hdot
      refine ⟨(readWhile_takes _ _ _).cons, .some _ ⟨?_, readWhile_all _ _ _⟩⟩
      exact readWhile_ne_nil hdigit (ne_nil_of_isdigit hdigit)
  · exact ⟨.nil, .none⟩

theorem readSign_takes (text : List Char) (pos : Position) :
    Takes text pos (readSign text pos).1 (readSign text pos).2 ∧
      (readSign text pos).1 ∈ [[], ['+'], ['-']] := by
  rw [readSign]
  split
  · next h =>
    cases text with
    | nil => exact absurd h (by decide)
    | cons ch rest =>
      refine ⟨Takes.nil.cons, ?_⟩
      have hch : ch = '+' ∨ ch = '-' := by simpa [currentChar] using h
      rcases hch with rfl | rfl <;> simp [currentChar]
  · exact ⟨.nil, List.mem_cons_self⟩

theorem readExponent_takes {es : List Char} (h : readExponent cls text pos = some (es, c)) :
    Takes text pos es c ∧ Exponent cls es := by
  rw [readExponent] at h
  split at h
  · next he =>
    dsimp only at h
    split at h
    · next hdigit =>
      cases h
      cases text with
      | nil => exact absurd he (by decide)
      | cons e rest =>
        obtain ⟨hsign, hmem⟩ := readSign_takes rest (pos.next e)
        refine ⟨(hsign.append (readWhile_takes _ _ _)).cons, .some e _ _ he hmem ⟨?_, ?_⟩⟩
        · exact readWhile_ne_nil hdigit (ne_nil_of_isdigit hdigit)
        · exact readWhile_all _ _ _
    · cases h
  · cases h
    exact ⟨.nil, .none⟩

theorem readNumber_takes (hdigit : cls.isdigit (currentChar text) = true)
    (h : readNumber cls text pos = .ok (token, c)) : TakesToken cls text pos token c := by
  rw [readNumber] at h
  have hinteger := readWhile_takes cls.isdigit text pos
  have hdigits : Digits cls (readWhile cls.isdigit text pos).1 :=
    ⟨readWhile_ne_nil hdigit (ne_nil_of_isdigit hdigit), readWhile_all _ _ _⟩
  dsimp only at h
  split at h
  · next exponent he =>
    cases h
    obtain ⟨hexponent, hes⟩ := readExponent_takes he
    obtain ⟨hfraction, hf⟩ := readFraction_takes _ _
    exact ⟨rfl, rfl, _, hinteger.append (hfraction.append hexponent),
      .number _ _ _ hdigits hf hes⟩
  · cases h

theorem readOperator_takes (hne : text ≠ []) (h : readOperator cls text pos = .ok (token, c)) :
    TakesToken cls text pos token c := by
  obtain ⟨a, rest, rfl⟩ := List.exists_cons_of_ne_nil hne
  rw [readOperator] at h
  split at h
  · next type htype =>
    cases h
    cases rest with
    | nil =>
      -- no operator of two characters ends with NUL
      exact absurd htype (by unfold twoCharOperator; split <;> simp_all [peekChar, nul])
    | cons b rest => exact ⟨rfl, rfl, _, Takes.nil.cons.cons, .two a b type htype⟩
  · split at h
    · next type htype =>
      cases h
      exact ⟨rfl, rfl, _, Takes.nil.cons, .one a type htype⟩
    · cases h

theorem readToken_takes (hne : text ≠ []) (h : readToken cls text pos = .ok (token, c)) :
    TakesToken cls text pos token c := by
  obtain ⟨ch, rest, rfl⟩ := List.exists_cons_of_ne_nil hne
  rw [readToken] at h
  simp only [show currentChar (ch :: rest) = ch from rfl] at h
  split at h
  · next hquote =>
    subst hquote
    exact readString_takes h
  split at h
  · next hdigit => exact readNumber_takes hdigit h
  split at h
  · next hdigit hword =>
    cases h
    exact readIdentifierOrKeyword_takes (by simpa using hdigit) hword
  split at h
  · next hquote =>
    subst hquote
    exact readQuotedIdentifier_takes h
  · exact readOperator_takes hne h

end Tokens

/-! ## The layout of a source -/

/-- The token begins right after this text. -/
def Token.StartsAfter (token : Token) (before : List Char) : Prop :=
  token.line = lineAt before ∧ token.column = columnAt before

/-- A token with the piece of text that it spells and the gap in front of it. -/
structure Piece where
  gap : List Char
  token : Token
  span : List Char

/-- The text of pieces that follow one another. -/
def textOf : List Piece → List Char
  | [] => []
  | piece :: pieces => piece.gap ++ (piece.span ++ textOf pieces)

/-- The text, which stands after `before`, consists of the pieces of all tokens but the last, which
is the EOF, and a gap in front of that. -/
structure LaidOut (cls : CharClasses) (before text : List Char) (pieces : List Piece)
    (lastGap : List Char) (tokens : List Token) : Prop where
  text_eq : text = textOf pieces ++ lastGap
  tokens_eq : ∃ eof, tokens = pieces.map Piece.token ++ [eof] ∧ eof.toLexeme = ⟨.eof, ""⟩ ∧
    eof.StartsAfter (before ++ text)
  spells : ∀ piece ∈ pieces, piece.span ≠ [] ∧ Spells cls piece.token.toLexeme piece.span
  gaps : ∀ piece ∈ pieces, Gap false piece.gap
  lastGap : Gap true lastGap
  starts : ∀ front piece back, pieces = front ++ piece :: back →
    piece.token.StartsAfter (before ++ textOf front ++ piece.gap)

section Layout

variable {cls : CharClasses} {before text rest w gap : List Char} {tokens : List Token}
  {token : Token} {pos : Position} {c : Cursor}

theorem startsAfter_of_pos (hpos : pos = ({} : Position).after before) (hline : token.line = pos.line)
    (hcolumn : token.column = pos.column) : token.StartsAfter before := by
  rw [Position.after_start] at hpos
  subst hpos
  exact ⟨hline, hcolumn⟩

theorem Spells.ne_nil {l : Lexeme} (h : Spells cls l w) : w ≠ [] := by
  cases h with
  | number ds fs es hds _ _ => simp [hds.1]
  | string chars => exact List.cons_ne_nil _ _
  | quoted chars _ => exact List.cons_ne_nil _ _
  | word ch w _ _ _ => exact List.cons_ne_nil _ _
  | two a b type _ => exact List.cons_ne_nil _ _
  | one a type _ => exact List.cons_ne_nil _ _

theorem laidOut_eof (h : Gap true gap) (htoken : token.toLexeme = ⟨.eof, ""⟩)
    (hstarts : token.StartsAfter (before ++ gap)) : LaidOut cls before gap [] gap [token] where
  text_eq := rfl
  tokens_eq := ⟨token, rfl, htoken, hstarts⟩
  spells := by simp
  gaps := by simp
  lastGap := h
  starts := by simp

/-- A gap and a token in front. -/
theorem LaidOut.cons {pieces : List Piece} {lastGap : List Char} (hgap : Gap false gap)
    (hspells : Spells cls token.toLexeme w) (hstarts : token.StartsAfter (before ++ gap))
    (h : LaidOut cls (before ++ gap ++ w) rest pieces lastGap tokens) :
    LaidOut cls before (gap ++ (w ++ rest)) (⟨gap, token, w⟩ :: pieces) lastGap (token :: tokens) where
  text_eq := by
    rw [h.text_eq, textOf]
    simp only [List.append_assoc]
  tokens_eq := by
    obtain ⟨eof, htokens, heof, hafter⟩ := h.tokens_eq
    refine ⟨eof, by rw [htokens]; rfl, heof, ?_⟩
    simpa only [List.append_assoc] using hafter
  spells piece hpiece := by
    rcases List.mem_cons.mp hpiece with rfl | hpiece
    · exact ⟨hspells.ne_nil, hspells⟩
    · exact h.spells piece hpiece
  gaps piece hpiece := by
    rcases List.mem_cons.mp hpiece with rfl | hpiece
    · exact hgap
    · exact h.gaps piece hpiece
  lastGap := h.lastGap
  starts front piece back heq := by
    cases front with
    | nil =>
      obtain ⟨rfl, rfl⟩ := List.cons.inj heq
      rwa [textOf, List.append_nil]
    | cons first front =>
      obtain ⟨rfl, rfl⟩ := List.cons.inj heq
      have hrest := h.starts front piece back rfl
      simpa only [textOf, List.append_assoc] using hrest

variable (cls) in
/-- The tokens of a text, one gap and one token after the other. -/
inductive Layout : List Char → List Char → List Token → Prop where
  | eof (before gap : List Char) (token : Token) : Gap true gap → token.toLexeme = ⟨.eof, ""⟩ →
      token.StartsAfter (before ++ gap) → Layout before gap [token]
  | token (before gap w rest : List Char) (token : Token) (tokens : List Token) : Gap false gap →
      Spells cls token.toLexeme w → token.StartsAfter (before ++ gap) →
      Layout (before ++ gap ++ w) rest tokens → Layout before (gap ++ (w ++ rest)) (token :: tokens)

theorem Layout.laidOut (h : Layout cls before text tokens) :
    ∃ pieces lastGap, LaidOut cls before text pieces lastGap tokens := by
  induction h with
  | eof before gap token hgap htoken hstarts => exact ⟨[], gap, laidOut_eof hgap htoken hstarts⟩
  | token before gap w rest token tokens hgap hspells hstarts _ ih =>
    obtain ⟨pieces, lastGap, hrest⟩ := ih
    exact ⟨_, lastGap, hrest.cons hgap hspells hstarts⟩

/-- White space or a comment in front belongs to the first gap. -/
theorem Layout.skip (hgap : ∀ last v, Gap last v → Gap last (gap ++ v))
    (h : Layout cls (before ++ gap) rest tokens) : Layout cls before (gap ++ rest) tokens := by
  cases h with
  | eof _ _ token hg htoken hstarts =>
    exact .eof _ _ token (hgap true rest hg) htoken (by rwa [← List.append_assoc])
  | token _ g w rest token tokens hg hspells hstarts hrest =>
    rw [← List.append_assoc]
    refine .token _ _ w rest token tokens (hgap false g hg) hspells ?_ ?_
    · rwa [← List.append_assoc]
    · rwa [← List.append_assoc]

/-! ## The gaps that the loop skips -/

theorem gap_whitespace (hw : ∀ ch ∈ w, isWhitespace ch = true) (last : Bool) (v : List Char)
    (hv : Gap last v) : Gap last (w ++ v) := by
  induction w with
  | nil => exact hv
  | cons ch w ih =>
    have hch : ch ∈ [' ', '\t', '\r', '\n'] := by simpa [isWhitespace] using hw ch List.mem_cons_self
    exact .space last ch _ hch (ih fun d hd => hw d (List.mem_cons_of_mem _ hd))

theorem currentChar_eq {text : List Char} {ch : Char} (h : currentChar text = ch) (hne : ch ≠ nul) :
    ∃ rest, text = ch :: rest := by
  cases text with
  | nil => exact absurd h.symm hne
  | cons d rest => exact ⟨rest, by rw [show d = ch from h]⟩

theorem tokenizeFrom_nil {n : ℕ} (h : tokenizeFrom cls n [] pos = .ok tokens) :
    tokens = [tokenAt .eof [] pos] := by
  cases n with
  | zero => cases h
  | succ n =>
    cases h
    rfl

/-- White space in front makes no difference to the loop. -/
theorem tokenizeFrom_whitespace {ch : Char} (hch : isWhitespace ch = true) (n : ℕ) :
    tokenizeFrom cls n (ch :: text) pos = tokenizeFrom cls n text (pos.next ch) := by
  cases n with
  | zero => rfl
  | succ n =>
    have hskip : skipWhitespace (ch :: text) pos = skipWhitespace text (pos.next ch) := by
      rw [skipWhitespace, readWhile, if_pos hch]
      rfl
    rw [tokenizeFrom, tokenizeFrom, hskip]

/-- A line comment up to the end of its line. -/
theorem layout_lineComment {n : ℕ} {body : List Char} (hbody : '\n' ∉ body)
    (hrest : ∀ ch v, rest = ch :: v → ch = '\n')
    (htokens : tokenizeFrom cls n rest (({} : Position).after (before ++ '-' :: '-' :: body)) =
      .ok tokens)
    (ih : ∀ before text, tokenizeFrom cls n text (({} : Position).after before) = .ok tokens →
      Layout cls before text tokens) :
    Layout cls before ('-' :: '-' :: body ++ rest) tokens := by
  cases rest with
  | nil =>
    obtain rfl := tokenizeFrom_nil htokens
    rw [List.append_nil]
    exact .eof _ _ _ (.lastLine body hbody) rfl (startsAfter_of_pos rfl rfl rfl)
  | cons ch v =>
    obtain rfl := hrest ch v rfl
    rw [tokenizeFrom_whitespace (by decide)] at htokens
    have hlayout := ih (before ++ ('-' :: '-' :: (body ++ ['\n']))) v (by
      rw [Position.after_append, Position.after_cons, Position.after_cons] at htokens ⊢
      rw [Position.after_append]
      exact htokens)
    have hskip := hlayout.skip fun last w hw => by
      rw [List.cons_append, List.cons_append, List.append_assoc]
      exact .line last body w hbody hw
    simpa using hskip

theorem exists_of_chars {a b : Char} (h : currentChar text = a ∧ peekChar text = b) (ha : a ≠ nul)
    (hb : b ≠ nul) : ∃ r, text = a :: b :: r := by
  obtain ⟨v, rfl⟩ := currentChar_eq h.1 ha
  obtain ⟨r, rfl⟩ := currentChar_eq (show currentChar v = b from h.2) hb
  exact ⟨r, rfl⟩

/-- A line comment is taken up to its newline, which stays. -/
theorem skipLineComment_takes (r : List Char) (pos : Position) :
    ∃ body c, skipLineComment ('-' :: '-' :: r) pos = c ∧ '\n' ∉ body ∧
      Takes ('-' :: '-' :: r) pos ('-' :: '-' :: body) c ∧ ∀ ch v, c.rest = ch :: v → ch = '\n' := by
  refine ⟨_, _, ?_, ?_, (readWhile_takes (· ≠ '\n') r _).cons.cons, fun ch v h => ?_⟩
  · rw [skipLineComment, readWhile, if_pos (by decide), readWhile, if_pos (by decide)]
  · exact fun hmem => by simpa using readWhile_all (· ≠ '\n') r _ _ hmem
  · simpa using readWhile_rest (· ≠ '\n') r _ ch v h

/-- The run lemma: by induction on the turns of the loop. -/
theorem layout_tokenizeFrom {n : ℕ} (before : List Char)
    (h : tokenizeFrom cls n text (({} : Position).after before) = .ok tokens) :
    Layout cls before text tokens := by
  induction n generalizing before text tokens with
  | zero => cases h
  | succ n ih =>
    rw [tokenizeFrom] at h
    have htakes := readWhile_takes isWhitespace text (({} : Position).after before)
    have hspace := readWhile_all isWhitespace text (({} : Position).after before)
    set w := (readWhile isWhitespace text (({} : Position).after before)).1
    rw [skipWhitespace] at h
    set c := (readWhile isWhitespace text (({} : Position).after before)).2
    rw [htakes.text_eq]
    refine Layout.skip (gap_whitespace hspace) ?_
    have hpos : c.pos = ({} : Position).after (before ++ w) := by
      rw [htakes.pos_eq, Position.after_append]
    generalize before ++ w = before' at hpos ⊢
    dsimp only at h
    split at h
    · next hnil =>
      cases h
      rw [hnil]
      exact .eof _ _ _ (.nil true) rfl (startsAfter_of_pos (by rw [List.append_nil, hpos]) rfl rfl)
    split at h
    · next hdashes =>
      obtain ⟨r, hr⟩ := exists_of_chars hdashes (by decide) (by decide)
      rw [hr] at h ⊢
      obtain ⟨body, c', hc', hbody, htakes', hrest⟩ := skipLineComment_takes r c.pos
      rw [hc', htakes'.pos_eq] at h
      rw [htakes'.text_eq]
      refine layout_lineComment hbody hrest ?_ fun before text => ih before
      rwa [hpos, ← Position.after_append] at h
    split at h
    · next hopen =>
      obtain ⟨r, hr⟩ := exists_of_chars hopen (by decide) (by decide)
      rw [hr] at h ⊢
      obtain ⟨c', hc', hrest⟩ := bind_eq_ok h
      obtain ⟨body, htakes', hcomment⟩ := skipComments_takes hc'
      have hpos' : c'.pos = ({} : Position).after (before' ++ '/' :: '*' :: body) := by
        rw [htakes'.pos_eq, hpos, Position.after_append]
        rfl
      rw [hpos'] at hrest
      have htext : '/' :: '*' :: r = '/' :: '*' :: body ++ c'.rest := by
        rw [List.cons_append, List.cons_append, ← htakes'.text_eq]
        rfl
      rw [htext]
      exact (ih _ hrest).skip fun last v hv => .block last body v hcomment hv
    · next hne _ _ =>
      obtain ⟨r, hr, hrest⟩ := bind_eq_ok h
      obtain ⟨tokens', htokens', heq⟩ := bind_eq_ok hrest
      cases heq
      obtain ⟨hline, hcolumn, v, htakes', hspells⟩ := readToken_takes hne hr
      rw [htakes'.text_eq]
      have hstarts : r.1.StartsAfter (before' ++ []) :=
        startsAfter_of_pos (by rw [List.append_nil, hpos]) hline hcolumn
      refine .token before' [] v _ r.1 tokens' (.nil false) hspells hstarts (ih _ ?_)
      rw [List.append_nil, Position.after_append, ← hpos, ← htakes'.pos_eq]
      exact htokens'

end Layout

/-- The lexer loses nothing, and the positions are those of the tokens. -/
theorem tokenize_laidOut {cls : CharClasses} {source : List Char} {tokens : List Token}
    (h : tokenize cls source = .ok tokens) :
    ∃ pieces lastGap, LaidOut cls [] source pieces lastGap tokens :=
  (layout_tokenizeFrom [] h).laidOut

/-- A string with a quote in it, comments of both kinds, an operator and a number. -/
def mixedSource : List Char :=
  "SELECT 'it''s' -- note\n/* a /* b */ c */ x <= 1.5e3".toList

def mixedTokens : List Token :=
  [⟨⟨.kwSelect, "SELECT"⟩, 1, 1⟩, ⟨⟨.stringLiteral, "it's"⟩, 1, 8⟩, ⟨⟨.identifier, "x"⟩, 2, 19⟩,
    ⟨⟨.lessEquals, "<="⟩, 2, 21⟩, ⟨⟨.floatLiteral, "1.5e3"⟩, 2, 24⟩, ⟨⟨.eof, ""⟩, 2, 29⟩]

theorem tokenize_mixedSource : tokenize .ascii mixedSource = .ok mixedTokens := by decide +kernel

theorem tokenize_laidOut_mixedSource :
    ∃ pieces lastGap, LaidOut .ascii [] mixedSource pieces lastGap mixedTokens :=
  tokenize_laidOut tokenize_mixedSource

end PySQL.Parse
