import PySQL.Parse.Spans

/-!
# Printed tokens are read again

Every token has a spelling that the lexer reads as this token wherever white space or the end of
the source follows.
-/

namespace PySQL.Parse

open Lib

/-- A token as text: strings and quoted identifiers in their quotes, any other by its value. -/
def renderLexeme (l : Lexeme) : List Char :=
  match l.type with
  | .stringLiteral => quoteString l.value.toList
  | .quotedIdentifier => '"' :: (l.value.toList ++ ['"'])
  | _ => l.value.toList

/-- The tokens with single spaces between them. -/
def render (tokens : List Token) : List Char :=
  List.intercalate [' '] (tokens.map fun token => renderLexeme token.toLexeme)

/-- What a test says of each element of a list. -/
theorem forall_mem_of_all {α : Type} {p : α → Prop} [DecidablePred p] {l : List α}
    (h : l.all (fun x => decide (p x)) = true) : ∀ x ∈ l, p x := by
  intro x hx
  exact of_decide_eq_true (List.all_eq_true.mp h x hx)

/-- The end of the source, or a space. -/
def Ends (rest : List Char) : Prop := ∀ ch v, rest = ch :: v → ch = ' '

section Characters

variable {cls : CharClasses} {rest : List Char} {ch : Char}

/-- The characters that have a meaning of their own to the lexer. -/
def specialChars : List Char :=
  nul :: '\'' :: '"' :: '\t' :: '\r' :: '\n' :: ' ' :: '!' :: '|' :: singleCharMap.map Prod.fst

theorem isdigit_special (h : ch ∈ specialChars) : cls.isdigit ch = false := by
  have hall : ∀ c ∈ specialChars, c.toNat < 128 ∧ c.isDigit = false :=
    forall_mem_of_all (by decide)
  rw [cls.isdigit_ascii ch (hall ch h).1, (hall ch h).2]

theorem isalpha_special (h : ch ∈ specialChars) : cls.isalpha ch = false := by
  have hall : ∀ c ∈ specialChars, c.toNat < 128 ∧ c.isAlpha = false :=
    forall_mem_of_all (by decide)
  rw [cls.isalpha_ascii ch (hall ch h).1, (hall ch h).2]

theorem isWordChar_special (h : ch ∈ specialChars) : isWordChar cls ch = false := by
  have hall : ∀ c ∈ specialChars, c.toNat < 128 ∧ c.isAlphanum = false ∧ c ≠ '_' :=
    forall_mem_of_all (by decide)
  obtain ⟨hlt, hnot, hne⟩ := hall ch h
  rw [isWordChar, cls.isalnum_ascii ch hlt, hnot, Bool.false_or, beq_eq_false_iff_ne]
  exact hne

theorem Ends.currentChar (h : Ends rest) : currentChar rest = nul ∨ currentChar rest = ' ' := by
  cases rest with
  | nil => exact .inl rfl
  | cons ch v => exact .inr (h ch v rfl)

theorem Ends.special (h : Ends rest) : PySQL.Parse.currentChar rest ∈ specialChars := by
  rcases h.currentChar with h | h <;> rw [h] <;> decide

end Characters

/-! ## The readers in front of an end -/

section Readers

variable {cls : CharClasses} {p : Char → Bool} {w rest : List Char} {pos : Position}

theorem readWhile_append (hw : ∀ ch ∈ w, p ch = true) (hrest : ∀ ch v, rest = ch :: v → p ch = false) :
    readWhile p (w ++ rest) pos = (w, ⟨rest, pos.after w⟩) := by
  induction w generalizing pos with
  | nil =>
    cases rest with
    | nil => rfl
    | cons ch v =>
      have hch : ¬ p ch = true := by simp [hrest ch v rfl]
      rw [List.nil_append, readWhile, if_neg hch]
      rfl
  | cons ch w ih =>
    rw [List.cons_append, readWhile, if_pos (hw ch List.mem_cons_self)]
    rw [ih fun d hd => hw d (List.mem_cons_of_mem _ hd)]
    rfl

theorem stringChars_append (chars : List Char) (hrest : Ends rest) (pos : Position) :
    stringChars (doubleQuotes chars ++ '\'' :: rest) pos =
      some (chars, ⟨rest, pos.after (doubleQuotes chars ++ ['\''])⟩) := by
  induction chars generalizing pos with
  | nil =>
    cases rest with
    | nil => rfl
    | cons ch v =>
      obtain rfl := hrest ch v rfl
      rfl
  | cons ch chars ih =>
    by_cases hch : ch = '\''
    · subst hch
      rw [doubleQuotes, if_pos rfl, List.cons_append, List.cons_append, stringChars, if_pos rfl,
        if_pos rfl, ih]
      rfl
    · rw [doubleQuotes, if_neg hch, List.cons_append]
      -- at least the closing quote follows
      obtain ⟨d, v, hv⟩ : ∃ d v, doubleQuotes chars ++ '\'' :: rest = d :: v :=
        List.exists_cons_of_ne_nil (by simp)
      rw [hv, stringChars, if_neg hch, ← hv, ih]
      rfl

/-! ## Numbers -/

/-- The text does not go on with a digit. -/
def NoDigit (cls : CharClasses) (text : List Char) : Prop :=
  ∀ ch v, text = ch :: v → cls.isdigit ch = false

theorem Ends.noDigit (h : Ends rest) : NoDigit cls rest := by
  rintro ch v rfl
  rw [h ch v rfl]
  exact isdigit_special (by decide)

theorem isdigit_exponent {e : Char} (h : e ∈ ['e', 'E']) : cls.isdigit e = false := by
  have hall : ∀ c ∈ ['e', 'E'], c.toNat < 128 ∧ c.isDigit = false :=
    forall_mem_of_all (by decide)
  rw [cls.isdigit_ascii e (hall e h).1, (hall e h).2]

theorem Exponent.noDigit {es : List Char} (h : Exponent cls es) (hrest : Ends rest) :
    NoDigit cls (es ++ rest) := by
  cases h with
  | none => exact hrest.noDigit
  | some e sign ds he _ _ =>
    rintro ch v heq
    obtain rfl : e = ch := (List.cons.inj heq).1
    exact isdigit_exponent he

theorem Fraction.noDigit {fs : List Char} (h : Fraction cls fs) (hw : NoDigit cls w) :
    NoDigit cls (fs ++ w) := by
  cases h with
  | none => exact hw
  | some ds _ =>
    rintro ch v heq
    obtain rfl : '.' = ch := (List.cons.inj heq).1
    exact isdigit_special (by decide)

theorem Digits.currentChar {ds : List Char} (h : Digits cls ds) (w : List Char) :
    cls.isdigit (currentChar (ds ++ w)) = true := by
  obtain ⟨d, ds', rfl⟩ := List.exists_cons_of_ne_nil h.1
  exact h.2 d List.mem_cons_self

theorem Digits.not_special {ds : List Char} (h : Digits cls ds) (w : List Char) :
    PySQL.Parse.currentChar (ds ++ w) ∉ specialChars := by
  intro hmem
  have hdigit := h.currentChar w
  rw [isdigit_special hmem] at hdigit
  cases hdigit

theorem readFraction_append {fs : List Char} (h : Fraction cls fs) (hw : NoDigit cls w)
    (hdot : currentChar w ≠ '.') :
    readFraction cls (fs ++ w) pos = (fs, ⟨w, pos.after fs⟩) := by
  cases h with
  | none => exact if_neg fun h => hdot h.1
  | some ds hds =>
    have hpeek : cls.isdigit (peekChar ('.' :: (ds ++ w))) = true := hds.currentChar w
    rw [List.cons_append, readFraction, if_pos ⟨rfl, hpeek⟩, List.tail_cons,
      readWhile_append hds.2 hw]
    rfl

theorem readSign_append {sign ds : List Char} (h : sign ∈ [[], ['+'], ['-']]) (hds : Digits cls ds) :
    readSign (sign ++ (ds ++ rest)) pos = (sign, ⟨ds ++ rest, pos.after sign⟩) := by
  simp only [List.mem_cons, List.not_mem_nil, or_false] at h
  rcases h with rfl | rfl | rfl
  · refine if_neg fun hsign => hds.not_special rest ?_
    have hall : ∀ c ∈ ['+', '-'], c ∈ specialChars :=
      forall_mem_of_all (by decide)
    exact hall _ hsign
  · rfl
  · rfl

theorem readExponent_append {es : List Char} (h : Exponent cls es) (hrest : Ends rest) :
    readExponent cls (es ++ rest) pos = some (es, ⟨rest, pos.after es⟩) := by
  cases h with
  | none =>
    refine if_neg fun he => ?_
    rcases hrest.currentChar with hc | hc <;> rw [List.nil_append, hc] at he <;>
      exact absurd he (by decide)
  | some e sign ds he hsign hds =>
    have hcurrent : currentChar (e :: (sign ++ (ds ++ rest))) ∈ ['e', 'E'] := he
    rw [List.cons_append, List.append_assoc, readExponent, if_pos hcurrent]
    simp only [List.tail_cons, readSign_append hsign hds, hds.currentChar rest, if_true,
      readWhile_append hds.2 hrest.noDigit, Position.after_cons, Position.after_append]
    rfl

theorem readNumber_append {ds fs es : List Char} (hds : Digits cls ds) (hfs : Fraction cls fs)
    (hes : Exponent cls es) (hrest : Ends rest) :
    readNumber cls (ds ++ (fs ++ es) ++ rest) pos =
      .ok (tokenAt (if fs = [] ∧ es = [] then .integerLiteral else .floatLiteral)
        (ds ++ (fs ++ es)) pos, ⟨rest, pos.after (ds ++ (fs ++ es))⟩) := by
  have hdot : currentChar (es ++ rest) ≠ '.' := by
    cases hes with
    | none => rcases hrest.currentChar with hc | hc <;> rw [List.nil_append, hc] <;> decide
    | some e sign ds' he _ _ =>
      have hall : ∀ c ∈ ['e', 'E'], c ≠ '.' :=
        forall_mem_of_all (by decide)
      exact hall e he
  have hnext := hes.noDigit hrest
  rw [List.append_assoc, List.append_assoc, readNumber,
    readWhile_append hds.2 (hfs.noDigit hnext)]
  dsimp only
  rw [readFraction_append hfs hnext hdot]
  dsimp only
  rw [readExponent_append hes hrest]
  simp only [Position.after_append]

/-! ## Every token -/

/-- The token is read and what follows is left. -/
def ReadBack (cls : CharClasses) (l : Lexeme) (w rest : List Char) : Prop :=
  ∀ pos : Position, readToken cls (w ++ rest) pos =
    .ok ({ toLexeme := l, line := pos.line, column := pos.column }, ⟨rest, pos.after w⟩)

theorem readBack_string (chars : List Char) (hrest : Ends rest) :
    ReadBack cls ⟨.stringLiteral, String.ofList chars⟩ (quoteString chars) rest := by
  intro pos
  have htext : quoteString chars ++ rest = '\'' :: (doubleQuotes chars ++ '\'' :: rest) := by
    simp [quoteString]
  rw [htext, readToken]
  simp only [currentChar, List.headD_cons, if_true]
  rw [readString]
  simp only [currentChar, List.headD_cons, List.tail_cons]
  rw [stringChars_append chars hrest]
  rfl

theorem readBack_number {ds fs es : List Char} (hds : Digits cls ds) (hfs : Fraction cls fs)
    (hes : Exponent cls es) (hrest : Ends rest) :
    ReadBack cls ⟨if fs = [] ∧ es = [] then .integerLiteral else .floatLiteral,
      String.ofList (ds ++ (fs ++ es))⟩ (ds ++ (fs ++ es)) rest := by
  intro pos
  have hdigit : cls.isdigit (currentChar (ds ++ (fs ++ es) ++ rest)) = true := by
    rw [List.append_assoc]
    exact hds.currentChar _
  have hquote : currentChar (ds ++ (fs ++ es) ++ rest) ≠ '\'' := by
    intro h
    rw [h, isdigit_special (by decide)] at hdigit
    cases hdigit
  rw [readToken]
  simp only [hquote, hdigit, if_true, if_false]
  exact readNumber_append hds hfs hes hrest

theorem readBack_word {ch : Char} {v : List Char} (hdigit : cls.isdigit ch = false)
    (hch : cls.isalpha ch = true ∨ ch = '_') (hv : ∀ d ∈ v, isWordChar cls d = true)
    (hrest : Ends rest) : ReadBack cls (wordLexeme cls (ch :: v)) (ch :: v) rest := by
  intro pos
  have hword : isWordChar cls ch = true := by
    rcases hch with hch | rfl
    · simp [isWordChar, cls.isalnum_of_isalpha ch hch]
    · simp [isWordChar]
  have hquote : ch ≠ '\'' := by
    rintro rfl
    rw [isWordChar_special (by decide)] at hword
    cases hword
  have hstop : ∀ d u, rest = d :: u → isWordChar cls d = false := by
    rintro d u rfl
    rw [hrest d u rfl]
    exact isWordChar_special (by decide)
  have hall : ∀ d ∈ ch :: v, isWordChar cls d = true := by
    intro d hd
    rcases List.mem_cons.mp hd with rfl | hd
    · exact hword
    · exact hv d hd
  rw [readToken]
  simp only [currentChar, List.cons_append, List.headD_cons, hquote, hdigit, hch, if_true, if_false,
    Bool.false_eq_true]
  rw [readIdentifierOrKeyword, ← List.cons_append, readWhile_append hall hstop]

theorem readBack_quoted {chars : List Char} (hchars : '"' ∉ chars) :
    ReadBack cls ⟨.quotedIdentifier, String.ofList chars⟩ ('"' :: (chars ++ ['"'])) rest := by
  intro pos
  have hall : ∀ ch ∈ chars, decide (ch ≠ '"') = true := by
    intro ch hmem
    exact decide_eq_true fun heq => hchars (heq ▸ hmem)
  have hstop : ∀ ch v, '"' :: rest = ch :: v → decide (ch ≠ '"') = false := by
    rintro ch v ⟨⟩
    rfl
  have hdigit : cls.isdigit '"' = false := isdigit_special (by decide)
  have halpha : cls.isalpha '"' = false := isalpha_special (by decide)
  have htext : '"' :: (chars ++ ['"']) ++ rest = '"' :: (chars ++ '"' :: rest) := by simp
  rw [htext, readToken]
  simp only [currentChar, List.headD_cons, hdigit, halpha, Bool.false_eq_true, if_false, if_true,
    false_or, show ('"' = '\'') = False from eq_false (by decide),
    show ('"' = '_') = False from eq_false (by decide)]
  rw [readQuotedIdentifier]
  simp only [currentChar, List.headD_cons, List.tail_cons]
  rw [readWhile_append hall hstop]
  simp only [Position.after_cons, Position.after_append]
  rfl

/-- An operator goes to `readOperator`. -/
theorem readToken_operator {ch : Char} {v : List Char} (h : ch ∈ specialChars) (hquote : ch ≠ '\'')
    (hquoted : ch ≠ '"') : readToken cls (ch :: v) pos = readOperator cls (ch :: v) pos := by
  have hunder : ch ≠ '_' := by
    have hall : ∀ c ∈ specialChars, c ≠ '_' :=
      forall_mem_of_all (by decide)
    exact hall ch h
  have hdigit : cls.isdigit ch = false := isdigit_special h
  have halpha : cls.isalpha ch = false := isalpha_special h
  rw [readToken]
  simp only [currentChar, List.headD_cons, hquote, hquoted, hunder, hdigit, halpha,
    Bool.false_eq_true, if_false, or_self]

theorem readBack_two {a b : Char} {type : TokenType} (h : twoCharOperator a b = some type) :
    ReadBack cls ⟨type, String.ofList [a, b]⟩ [a, b] rest := by
  intro pos
  have ha : a ∈ specialChars ∧ a ≠ '\'' ∧ a ≠ '"' := by
    unfold twoCharOperator at h
    split at h <;> first | exact ⟨by decide, by decide, by decide⟩ | cases h
  have hpeek : twoCharOperator (currentChar (a :: b :: rest)) (peekChar (a :: b :: rest)) =
      some type := h
  rw [List.cons_append, List.cons_append, List.nil_append, readToken_operator ha.1 ha.2.1 ha.2.2,
    readOperator, hpeek]
  rfl

theorem twoCharOperator_end {a : Char} (hrest : Ends rest) :
    twoCharOperator a (currentChar rest) = none := by
  unfold twoCharOperator
  split
  all_goals try rfl
  all_goals
    rename_i heq
    rcases hrest.currentChar with hc | hc <;> rw [hc] at heq <;> exact absurd heq (by decide)

theorem readBack_one {a : Char} {type : TokenType} (h : singleCharMap.lookup a = some type)
    (hrest : Ends rest) : ReadBack cls ⟨type, String.ofList [a]⟩ [a] rest := by
  intro pos
  have hmem : a ∈ singleCharMap.map Prod.fst := by
    obtain ⟨front, back, hmap, -⟩ := List.lookup_eq_some_iff.mp h
    rw [hmap]
    simp
  have ha : a ∈ specialChars ∧ a ≠ '\'' ∧ a ≠ '"' := by
    have hall : ∀ c ∈ singleCharMap.map Prod.fst, c ∈ specialChars ∧ c ≠ '\'' ∧ c ≠ '"' :=
      forall_mem_of_all (by decide)
    exact hall a hmem
  have hpeek : twoCharOperator (currentChar (a :: rest)) (peekChar (a :: rest)) = none :=
    twoCharOperator_end hrest
  have hlookup : singleCharMap.lookup (currentChar (a :: rest)) = some type := h
  rw [List.cons_append, List.nil_append, readToken_operator ha.1 ha.2.1 ha.2.2, readOperator, hpeek]
  dsimp only
  rw [hlookup]
  rfl

theorem Spells.readBack {l : Lexeme} (h : Spells cls l w) (hrest : Ends rest) :
    ReadBack cls l w rest := by
  cases h with
  | string chars => exact readBack_string chars hrest
  | number ds fs es hds hfs hes => exact readBack_number hds hfs hes hrest
  | word ch v hdigit hch hv => exact readBack_word hdigit hch hv hrest
  | quoted chars hchars => exact readBack_quoted hchars
  | two a b type htype => exact readBack_two htype
  | one a type htype => exact readBack_one htype hrest

end Readers

/-! ## Rendering is a spelling -/

section Rendering

variable {cls : CharClasses} {w : List Char} {l : Lexeme} {name : String} {type : TokenType}

/-- Only strings and quoted identifiers are put in quotes. -/
theorem renderLexeme_eq (hstring : l.type ≠ .stringLiteral) (hquoted : l.type ≠ .quotedIdentifier) :
    renderLexeme l = l.value.toList := by
  unfold renderLexeme
  split
  · contradiction
  · contradiction
  · rfl

/-- The keyword as a lexeme. -/
def keywordLexeme (name : String) (type : TokenType) : Lexeme :=
  if name = "TRUE" then ⟨.booleanLiteral, "TRUE"⟩
  else if name = "FALSE" then ⟨.booleanLiteral, "FALSE"⟩
  else ⟨type, name⟩

theorem wordLexeme_keyword (hupper : cls.upper (String.ofList w) = name)
    (h : keywords.lookup name = some type) : wordLexeme cls w = keywordLexeme name type := by
  rw [wordLexeme, hupper, h]
  rfl

theorem wordLexeme_identifier (h : keywords.lookup (cls.upper (String.ofList w)) = none) :
    wordLexeme cls w = ⟨.identifier, String.ofList w⟩ := by
  rw [wordLexeme, h]

theorem value_keywordLexeme : (keywordLexeme name type).value = name := by
  unfold keywordLexeme
  split
  · next h => exact h.symm
  split
  · next h => exact h.symm
  · rfl

theorem type_keywordLexeme {other : TokenType} (htype : type ≠ other) (hother : .booleanLiteral ≠ other) :
    (keywordLexeme name type).type ≠ other := by
  unfold keywordLexeme
  split
  · exact hother
  split
  · exact hother
  · exact htype

theorem keyword_facts : ∀ keyword ∈ keywords, keyword.1.toList ≠ [] ∧
    (∀ ch ∈ keyword.1.toList, ch.isUpper = true ∧ ch.toNat < 128) ∧
    keyword.2 ≠ .stringLiteral ∧ keyword.2 ≠ .quotedIdentifier := by
  have hall : ∀ keyword ∈ keywords, keyword.1.toList ≠ [] ∧
      keyword.1.toList.all (fun ch => decide (ch.isUpper = true ∧ ch.toNat < 128)) = true ∧
      keyword.2 ≠ .stringLiteral ∧ keyword.2 ≠ .quotedIdentifier :=
    forall_mem_of_all (by decide +kernel)
  intro keyword hkeyword
  obtain ⟨hne, hupper, hstring, hquoted⟩ := hall keyword hkeyword
  exact ⟨hne, forall_mem_of_all hupper, hstring, hquoted⟩

theorem isAlpha_of_isUpper {ch : Char} (h : ch.isUpper = true) : ch.isAlpha = true := by
  show (ch.isUpper || ch.isLower) = true
  rw [h, Bool.true_or]

theorem isDigit_of_isUpper {ch : Char} (h : ch.isUpper = true) : ch.isDigit = false := by
  change decide (ch.val ≥ 'A'.val ∧ ch.val ≤ 'Z'.val) = true at h
  simp only [Char.isDigit, decide_eq_true_eq, ge_iff_le, UInt32.le_iff_toNat_le,
    Bool.and_eq_false_iff, decide_eq_false_iff_not] at h ⊢
  right
  have hA : 'A'.val.toNat = 65 := rfl
  have h9 : '9'.val.toNat = 57 := rfl
  omega

/-- A keyword is a word in upper case. -/
theorem spells_keyword (h : keywords.lookup name = some type) :
    Spells cls (keywordLexeme name type) name.toList := by
  obtain ⟨front, back, hmap, -⟩ := List.lookup_eq_some_iff.mp h
  obtain ⟨hne, hall, -, -⟩ := keyword_facts (name, type) (by rw [hmap]; simp)
  have hupper : cls.upper (String.ofList name.toList) = name := by
    rw [String.ofList_toList]
    exact cls.upper_of_isUpper name fun ch hch => (hall ch hch).1
  have hword : ∀ ch ∈ name.toList, isWordChar cls ch = true := by
    intro ch hch
    have halpha := isAlpha_of_isUpper (hall ch hch).1
    rw [isWordChar, cls.isalnum_ascii ch (hall ch hch).2, Char.isAlphanum, halpha]
    rfl
  rw [← wordLexeme_keyword hupper h]
  obtain ⟨ch, v, hv⟩ := List.exists_cons_of_ne_nil hne
  rw [hv] at hall hword ⊢
  obtain ⟨hch, hlt⟩ := hall ch List.mem_cons_self
  refine .word ch v ?_ (.inl ?_) fun d hd => hword d (List.mem_cons_of_mem _ hd)
  · rw [cls.isdigit_ascii ch hlt, isDigit_of_isUpper hch]
  · rw [cls.isalpha_ascii ch hlt, isAlpha_of_isUpper hch]

theorem Spells.render (h : Spells cls l w) : Spells cls l (renderLexeme l) := by
  cases h with
  | string chars =>
    have htext : renderLexeme ⟨.stringLiteral, String.ofList chars⟩ = quoteString chars := by
      rw [renderLexeme, String.toList_ofList]
    rw [htext]
    exact .string chars
  | number ds fs es hds hfs hes =>
    rw [renderLexeme_eq (by dsimp only; split <;> decide) (by dsimp only; split <;> decide),
      String.toList_ofList]
    exact .number ds fs es hds hfs hes
  | word ch v hdigit hch hv =>
    cases hlookup : keywords.lookup (cls.upper (String.ofList (ch :: v))) with
    | none =>
      have hword := wordLexeme_identifier hlookup
      have hspells := Spells.word ch v hdigit hch hv
      rw [hword] at hspells ⊢
      rw [renderLexeme_eq TokenType.noConfusion TokenType.noConfusion, String.toList_ofList]
      exact hspells
    | some type =>
      rw [wordLexeme_keyword rfl hlookup]
      obtain ⟨front, back, hmap, -⟩ := List.lookup_eq_some_iff.mp hlookup
      obtain ⟨-, -, hstring, hquoted⟩ := keyword_facts
        (cls.upper (String.ofList (ch :: v)), type) (by rw [hmap]; simp)
      rw [renderLexeme_eq (type_keywordLexeme hstring (by decide))
        (type_keywordLexeme hquoted (by decide)), value_keywordLexeme]
      exact spells_keyword hlookup
  | quoted chars hchars =>
    have htext : renderLexeme ⟨.quotedIdentifier, String.ofList chars⟩ =
        '"' :: (chars ++ ['"']) := by
      rw [renderLexeme, String.toList_ofList]
    rw [htext]
    exact .quoted chars hchars
  | two a b type htype =>
    have hfacts : type ≠ .stringLiteral ∧ type ≠ .quotedIdentifier := by
      unfold twoCharOperator at htype
      split at htype <;> first | (cases htype; exact ⟨by decide, by decide⟩) | cases htype
    rw [renderLexeme_eq hfacts.1 hfacts.2, String.toList_ofList]
    exact .two a b type htype
  | one a type htype =>
    have hfacts : type ≠ .stringLiteral ∧ type ≠ .quotedIdentifier := by
      have hall : ∀ entry ∈ singleCharMap,
          entry.2 ≠ .stringLiteral ∧ entry.2 ≠ .quotedIdentifier := by decide
      obtain ⟨front, back, hmap, -⟩ := List.lookup_eq_some_iff.mp htype
      exact hall (a, type) (by rw [hmap]; simp)
    rw [renderLexeme_eq hfacts.1 hfacts.2, String.toList_ofList]
    exact .one a type htype

end Rendering

/-! ## Whole sources -/

section Sources

variable {cls : CharClasses} {w rest : List Char} {l : Lexeme} {pos : Position}

/-- A token does not begin like white space or a comment. -/
def Begins (text : List Char) : Prop :=
  text ≠ [] ∧ isWhitespace (currentChar text) = false ∧
    ¬ (currentChar text = '-' ∧ peekChar text = '-') ∧
    ¬ (currentChar text = '/' ∧ peekChar text = '*')

theorem begins_of_ne {ch : Char} (hspace : isWhitespace ch = false) (hdash : ch ≠ '-')
    (hslash : ch ≠ '/') (v : List Char) : Begins (ch :: v) :=
  ⟨List.cons_ne_nil _ _, hspace, fun h => hdash h.1, fun h => hslash h.1⟩

theorem begins_of_not_special {ch : Char} (h : ch ∉ specialChars) (v : List Char) :
    Begins (ch :: v) := by
  have hall : ∀ c ∈ [' ', '\t', '\r', '\n', '-', '/'], c ∈ specialChars :=
    forall_mem_of_all (by decide)
  have hne : ∀ c ∈ [' ', '\t', '\r', '\n', '-', '/'], ch ≠ c := by
    rintro c hc rfl
    exact h (hall ch hc)
  refine begins_of_ne (decide_eq_false fun hspace => ?_) (hne '-' (by decide))
    (hne '/' (by decide)) v
  have hsub : ∀ c ∈ [' ', '\t', '\r', '\n'], c ∈ [' ', '\t', '\r', '\n', '-', '/'] :=
    forall_mem_of_all (by decide)
  exact hne _ (hsub _ hspace) rfl

theorem Spells.begins (h : Spells cls l w) (hrest : Ends rest) : Begins (w ++ rest) := by
  cases h with
  | string chars => exact begins_of_ne rfl (by decide) (by decide) _
  | number ds fs es hds _ _ =>
    have hspecial := hds.not_special (fs ++ es ++ rest)
    obtain ⟨d, ds', rfl⟩ := List.exists_cons_of_ne_nil hds.1
    exact begins_of_not_special hspecial _
  | word ch v hdigit hch _ =>
    refine begins_of_not_special (fun hspecial => ?_) _
    rcases hch with hch | rfl
    · rw [isalpha_special hspecial] at hch
      cases hch
    · exact absurd hspecial (by decide)
  | quoted chars _ => exact begins_of_ne rfl (by decide) (by decide) _
  | two a b type htype =>
    unfold twoCharOperator at htype
    split at htype
    all_goals first
      | exact begins_of_ne rfl (by decide) (by decide) _
      | cases htype
  | one a type htype =>
    obtain ⟨front, back, hmap, -⟩ := List.lookup_eq_some_iff.mp htype
    have hall : ∀ entry ∈ singleCharMap, isWhitespace entry.1 = false :=
      forall_mem_of_all (by decide)
    refine ⟨List.cons_ne_nil _ _, hall (a, type) (by rw [hmap]; simp), fun h => ?_, fun h => ?_⟩
    · have hpeek : currentChar rest = '-' := h.2
      rcases hrest.currentChar with hc | hc <;> rw [hc] at hpeek <;> exact absurd hpeek (by decide)
    · have hpeek : currentChar rest = '*' := h.2
      rcases hrest.currentChar with hc | hc <;> rw [hc] at hpeek <;> exact absurd hpeek (by decide)

/-- One turn of the loop reads the token. -/
theorem tokenizeFrom_token (h : Spells cls l w) (hrest : Ends rest) (n : ℕ) {tokens : List Token}
    (htokens : tokenizeFrom cls n rest (pos.after w) = .ok tokens) :
    tokenizeFrom cls (n + 1) (w ++ rest) pos =
      .ok ({ toLexeme := l, line := pos.line, column := pos.column } :: tokens) := by
  obtain ⟨hne, hspace, hdashes, hopen⟩ := h.begins hrest
  have hskip : skipWhitespace (w ++ rest) pos = ⟨w ++ rest, pos⟩ := by
    obtain ⟨ch, v, htext⟩ := List.exists_cons_of_ne_nil hne
    rw [htext] at hspace ⊢
    have hch : ¬ isWhitespace ch = true := by simpa [currentChar] using hspace
    rw [skipWhitespace, readWhile, if_neg hch]
  rw [tokenizeFrom, hskip]
  simp only [hne, hdashes, hopen, if_false]
  rw [h.readBack hrest]
  show (tokenizeFrom cls n rest (pos.after w) >>= fun tokens => _) = _
  rw [htokens]
  rfl

/-- The texts of the tokens, each with a space behind it. -/
def renderAll : List Lexeme → List Char
  | [] => []
  | l :: ls => renderLexeme l ++ ' ' :: renderAll ls

theorem tokenizeFrom_renderAll (ls : List Lexeme) (hls : ∀ l ∈ ls, ∃ w, Spells cls l w) (n : ℕ)
    (hn : (renderAll ls).length < n) (pos : Position) :
    ∃ tokens, tokenizeFrom cls n (renderAll ls) pos = .ok tokens ∧
      tokens.map Token.toLexeme = ls ++ [⟨.eof, ""⟩] := by
  induction ls generalizing n pos with
  | nil =>
    obtain ⟨n, rfl⟩ : ∃ m, n = m + 1 := ⟨n - 1, by omega⟩
    exact ⟨[tokenAt .eof [] pos], rfl, rfl⟩
  | cons l ls ih =>
    obtain ⟨n, rfl⟩ : ∃ m, n = m + 1 := ⟨n - 1, by omega⟩
    obtain ⟨w, hw⟩ := hls l List.mem_cons_self
    have hspells := hw.render
    have hlen : (renderAll ls).length < n := by
      simp only [renderAll, List.length_append, List.length_cons] at hn
      omega
    obtain ⟨tokens, htokens, hlexemes⟩ := ih (fun l hl => hls l (List.mem_cons_of_mem _ hl)) n hlen
      ((pos.after (renderLexeme l)).next ' ')
    have hspace : isWhitespace ' ' = true := by decide
    rw [← tokenizeFrom_whitespace hspace] at htokens
    refine ⟨_, tokenizeFrom_token hspells ?_ n htokens, ?_⟩
    · rintro ch v ⟨⟩
      rfl
    · rw [List.map_cons, hlexemes, List.cons_append]

theorem render_eq (tokens : List Token) (eof : Token) (h : eof.toLexeme = ⟨.eof, ""⟩) :
    render (tokens ++ [eof]) = renderAll (tokens.map Token.toLexeme) := by
  induction tokens with
  | nil =>
    rw [List.nil_append, render, List.map_singleton, h]
    rfl
  | cons token tokens ih =>
    obtain ⟨next, rest, hnext⟩ : ∃ next rest, tokens ++ [eof] = next :: rest :=
      List.exists_cons_of_ne_nil (by simp)
    rw [List.map_cons, renderAll, ← ih, List.cons_append, hnext, render, render]
    simp [List.intercalate]

/-- Rendering the tokens of a source and reading them again gives the same types and values. -/
theorem tokenize_render {source : List Char} {tokens : List Token}
    (h : tokenize cls source = .ok tokens) :
    ∃ tokens', tokenize cls (render tokens) = .ok tokens' ∧
      tokens'.map Token.toLexeme = tokens.map Token.toLexeme := by
  obtain ⟨pieces, lastGap, hlaid⟩ := tokenize_laidOut h
  obtain ⟨eof, htokens, heof, -⟩ := hlaid.tokens_eq
  have hspells : ∀ l ∈ (pieces.map Piece.token).map Token.toLexeme, ∃ w, Spells cls l w := by
    intro l hl
    simp only [List.map_map, List.mem_map, Function.comp_apply] at hl
    obtain ⟨piece, hpiece, rfl⟩ := hl
    exact ⟨piece.span, (hlaid.spells piece hpiece).2⟩
  rw [htokens, render_eq _ _ heof, List.map_append, List.map_singleton, heof]
  exact tokenizeFrom_renderAll _ hspells _ (Nat.lt_succ_self _) {}

theorem tokenize_render_mixedSource :
    ∃ tokens', tokenize .ascii (render mixedTokens) = .ok tokens' ∧
      tokens'.map Token.toLexeme = mixedTokens.map Token.toLexeme :=
  tokenize_render tokenize_mixedSource

end Sources

end PySQL.Parse
