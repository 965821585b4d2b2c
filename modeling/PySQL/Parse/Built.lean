import PySQL.Parse.RoundTrip

/-!
# The trees that parsing builds

Whatever `_parse_expression` returns is printable, apart from subqueries and a CASE without WHEN.
-/

namespace PySQL.Parse

open Lib Query

/-- The lexer gives the keyword of an aggregate as the value of its token. -/
def Lexed (p : Parser) : Prop :=
  ∀ token ∈ p.tokens, token.type ∈ [.kwCount, .kwSum, .kwAvg, .kwMin, .kwMax] →
    aggregateType token.value = some token.type

mutual

/-- No subquery, and a WHEN in every CASE.  An IN with a subquery has no values. -/
def Covered : Expr → Prop
  | .literal _ | .columnRef _ _ | .starExpr _ => True
  | .binaryOp _ left right => Covered left ∧ Covered right
  | .unaryOp _ operand => Covered operand
  | .functionCall _ args _ _ => CoveredAll args
  | .betweenExpr expr low high _ => Covered expr ∧ Covered low ∧ Covered high
  | .inExpr expr values _ => Covered expr ∧ values ≠ [] ∧ CoveredAll values
  | .likeExpr expr pattern _ => Covered expr ∧ Covered pattern
  | .isNullExpr expr _ => Covered expr
  | .caseExpr operand whenClauses elseClause =>
    CoveredOption operand ∧ whenClauses ≠ [] ∧ CoveredWhen whenClauses ∧ CoveredOption elseClause
  | .castExpr expr _ => Covered expr
  | .existsExpr | .subqueryExpr => False

def CoveredAll : List Expr → Prop
  | [] => True
  | expr :: rest => Covered expr ∧ CoveredAll rest

def CoveredOption : Option Expr → Prop
  | none => True
  | some expr => Covered expr

def CoveredWhen : List (Expr × Expr) → Prop
  | [] => True
  | (condition, result) :: rest => (Covered condition ∧ Covered result) ∧ CoveredWhen rest

end

/-! ## The helpers -/

section Helpers

variable {J : Parser → Prop} {types : List TokenType}

/-- The invariant is about the tokens, not about the position. -/
def OfTokens (J : Parser → Prop) : Prop := ∀ p n, J p → J (p.skip n)

theorem ofTokens_lexed : OfTokens Lexed := fun _ _ h => h

theorem yields_current : Yields J current fun _ => True := by
  intro p a p' hp h
  cases h
  exact ⟨hp, trivial⟩

/-- What a reader yields where this is the current token. -/
def YieldsAt {β : Type} (J : Parser → Prop) (token : Token) (m : ParserM β) (R : β → Prop) : Prop :=
  ∀ p b p', J p → p.current = token → m p = .ok (b, p') → J p' ∧ R b

theorem yields_at {β : Type} {m : ParserM β} {R : β → Prop} (token : Token) (h : Yields J m R) :
    YieldsAt J token m R :=
  fun p b p' hp _ hm => h p b p' hp hm

theorem yields_look {β : Type} {f : Token → ParserM β} {R : β → Prop}
    (hf : ∀ token, YieldsAt J token (f token) R) : Yields J (current >>= f) R :=
  fun p b p' hp h => hf p.current p b p' hp rfl h

theorem yields_advance (hJ : OfTokens J) : Yields J advance fun _ => True := by
  intro p a p' hp h
  cases h
  exact ⟨hJ p 1 hp, trivial⟩

theorem yields_check : Yields J (check types) fun _ => True :=
  Yields.bind yields_current fun _ _ => Yields.pure trivial

theorem yields_currentType : Yields J currentType fun _ => True :=
  Yields.bind yields_current fun _ _ => Yields.pure trivial

theorem yields_peek (n : ℕ) : Yields J (peek n) fun _ => True := by
  intro p a p' hp h
  cases h
  exact ⟨hp, trivial⟩

theorem yields_advanceValue (hJ : OfTokens J) : Yields J advanceValue fun _ => True :=
  Yields.bind (yields_advance hJ) fun _ _ => Yields.pure trivial

theorem yields_expect (hJ : OfTokens J) (type : TokenType) (message : String) :
    Yields J (expect type message) fun _ => True := by
  refine Yields.bind yields_current fun token _ => ?_
  split
  · exact Yields.bind (Yields.throw _) fun _ (_ : True) => yields_advance hJ
  · exact yields_advance hJ

theorem yields_match (hJ : OfTokens J) : Yields J (matchToken types) fun _ => True := by
  refine Yields.bind yields_current fun token _ => ?_
  split
  · exact Yields.bind (yields_advance hJ) fun _ _ => Yields.pure trivial
  · exact Yields.pure trivial

end Helpers

/-! ## The grammar -/

/-- What the claim leaves out aside, the tree can be printed. -/
def Built (py : Py) (e : Expr) : Prop := Covered e → Printable py e

def BuiltAll (py : Py) (es : List Expr) : Prop := CoveredAll es → PrintableAll py es

def BuiltOption (py : Py) (e : Option Expr) : Prop := CoveredOption e → PrintableOption py e

def BuiltWhen (py : Py) (clauses : List (Expr × Expr)) : Prop :=
  CoveredWhen clauses → PrintableWhen py clauses

section Grammar

variable {py : Py} {select : ParserM Unit} {expression : ParserM Expr} {fuel : ℕ}
  (hselect : Yields Lexed select fun _ => True) (hexpression : Yields Lexed expression (Built py))

theorem built_functionCall {name : String} {args : List Expr} {distinct isAggregate : Bool}
    (hagg : isAggregate = true → py.upper name ∈ aggregateNames)
    (hdistinct : distinct = true → args = [] → name ∈ aggregateNames) (hargs : BuiltAll py args) :
    Built py (functionCall py name args distinct isAggregate) := by
  rw [functionCall_eq name isAggregate hagg]
  exact fun hcovered => ⟨rfl, hdistinct, hargs hcovered⟩

include hexpression

theorem yields_expressionListFrom (n : ℕ) : Yields Lexed (parseExpressionListFrom expression n)
    fun es => es ≠ [] ∧ BuiltAll py es := by
  induction n with
  | zero => exact Yields.throw _
  | succ n ih =>
    refine Yields.bind hexpression fun expr hexpr => ?_
    refine Yields.bind (yields_match ofTokens_lexed) fun found _ => Yields.ite ?_ ?_
    · refine Yields.bind ih fun rest hrest => Yields.pure ⟨List.cons_ne_nil _ _, fun hall => ?_⟩
      exact ⟨hexpr hall.1, hrest.2 hall.2⟩
    · exact Yields.pure ⟨List.cons_ne_nil _ _, fun hall => ⟨hexpr hall.1, trivial⟩⟩

theorem yields_callArgs : Yields Lexed (parseCallArgs expression fuel)
    fun args => (args.2 = true → args.1 ≠ []) ∧ BuiltAll py args.1 := by
  refine Yields.bind yields_check fun found _ => Yields.ite ?_ ?_
  · exact Yields.pure ⟨fun h => absurd h Bool.false_ne_true, fun h => h⟩
  · refine Yields.bind (yields_match ofTokens_lexed) fun distinct _ => ?_
    refine Yields.bind (yields_expressionListFrom hexpression fuel) fun args hargs => ?_
    exact Yields.pure ⟨fun _ => hargs.1, hargs.2⟩

theorem yields_aggregateArgs : Yields Lexed (parseAggregateArgs expression fuel)
    fun args => BuiltAll py args.1 := by
  refine Yields.bind yields_check fun found _ => Yields.ite ?_ ?_
  · exact Yields.bind (yields_advance ofTokens_lexed) fun _ _ =>
      Yields.pure fun _ => ⟨rfl, trivial⟩
  · refine Yields.bind (yields_match ofTokens_lexed) fun distinct _ => ?_
    refine Yields.bind yields_check fun found _ => Yields.ite (Yields.pure fun h => h) ?_
    exact Yields.bind (yields_expressionListFrom hexpression fuel) fun args hargs =>
      Yields.pure hargs.2

theorem yields_identifier : Yields Lexed (parseIdentifier py expression fuel) (Built py) := by
  refine Yields.bind (yields_advanceValue ofTokens_lexed) fun name _ => ?_
  refine Yields.bind (yields_match ofTokens_lexed) fun call _ => Yields.ite ?_ ?_
  · refine Yields.bind (yields_callArgs hexpression) fun args hargs => ?_
    refine Yields.bind (yields_expect ofTokens_lexed _ _) fun _ _ => Yields.pure ?_
    exact built_functionCall (fun h => absurd h Bool.false_ne_true)
      (fun hd hnil => absurd hnil (hargs.1 hd)) hargs.2
  · refine Yields.bind (yields_match ofTokens_lexed) fun qualified _ => Yields.ite ?_ ?_
    · exact Yields.bind (yields_advanceValue ofTokens_lexed) fun _ _ => Yields.pure fun _ => trivial
    · exact Yields.pure fun _ => trivial

/-- Called where an aggregate's keyword is the current token. -/
theorem built_aggregateFunction (hupper : UpperKeeps py) {p p' : Parser} {e : Expr} (hp : Lexed p)
    (htype : p.current.type ∈ [.kwCount, .kwSum, .kwAvg, .kwMin, .kwMax])
    (h : parseAggregateFunction py expression fuel p = .ok (e, p')) : Lexed p' ∧ Built py e := by
  have hname : p.current.value ∈ aggregateNames :=
    (aggregateType_some (hp _ (p.peek_mem 0) htype)).1
  have hrest : Yields Lexed (do
      let _ ← expect .lparen
      let args ← parseAggregateArgs expression fuel
      let _ ← expect .rparen
      return functionCall py p.current.value args.1 args.2 true) (Built py) := by
    refine Yields.bind (yields_expect ofTokens_lexed _ _) fun _ _ => ?_
    refine Yields.bind (yields_aggregateArgs hexpression) fun args hargs => ?_
    refine Yields.bind (yields_expect ofTokens_lexed _ _) fun _ _ => Yields.pure ?_
    exact built_functionCall (fun _ => by rw [hupper _ hname]; exact hname)
      (fun _ _ => hname) hargs
  exact hrest (p.skip 1) e p' hp h

theorem yields_whenClauses (n : ℕ) :
    Yields Lexed (parseWhenClauses expression n) (BuiltWhen py) := by
  induction n with
  | zero => exact Yields.throw _
  | succ n ih =>
    refine Yields.bind (yields_match ofTokens_lexed) fun found _ => Yields.ite ?_ ?_
    · refine Yields.bind hexpression fun condition hcondition => ?_
      refine Yields.bind (yields_expect ofTokens_lexed _ _) fun _ _ => ?_
      refine Yields.bind hexpression fun result hresult => ?_
      refine Yields.bind ih fun rest hrest => Yields.pure fun hall => ?_
      exact ⟨⟨hcondition hall.1.1, hresult hall.1.2⟩, hrest hall.2⟩
    · exact Yields.pure fun h => h

theorem yields_caseExpr : Yields Lexed (parseCaseExpr expression fuel) (Built py) := by
  have hoperand : Yields Lexed (parseCaseOperand expression) (BuiltOption py) := by
    refine Yields.bind yields_check fun found _ => Yields.ite (Yields.pure fun h => h) ?_
    exact Yields.bind hexpression fun operand hoperand => Yields.pure hoperand
  have helse : Yields Lexed (parseElse expression) (BuiltOption py) := by
    refine Yields.bind (yields_match ofTokens_lexed) fun found _ => Yields.ite ?_ ?_
    · exact Yields.bind hexpression fun elseClause helse => Yields.pure helse
    · exact Yields.pure fun h => h
  refine Yields.bind hoperand fun operand hoperand => ?_
  refine Yields.bind (yields_whenClauses hexpression fuel) fun clauses hclauses => ?_
  refine Yields.bind helse fun elseClause helse => ?_
  refine Yields.bind (yields_expect ofTokens_lexed _ _) fun _ _ => Yields.pure fun hall => ?_
  exact ⟨hoperand hall.1, hall.2.1, hclauses hall.2.2.1, helse hall.2.2.2⟩

theorem yields_castExpr : Yields Lexed (parseCastExpr expression) (Built py) := by
  refine Yields.bind (yields_expect ofTokens_lexed _ _) fun _ _ => ?_
  refine Yields.bind hexpression fun expr hexpr => ?_
  refine Yields.bind (yields_expect ofTokens_lexed _ _) fun _ _ => ?_
  have htype : Yields Lexed parseTargetType fun _ => True := by
    refine Yields.bind (yields_advanceValue ofTokens_lexed) fun type _ => ?_
    refine Yields.bind (yields_match ofTokens_lexed) fun found _ => Yields.ite ?_ (Yields.pure trivial)
    refine Yields.bind (yields_expect ofTokens_lexed _ _) fun param _ => ?_
    exact Yields.bind (yields_expect ofTokens_lexed _ _) fun _ _ => Yields.pure trivial
  refine Yields.bind htype fun targetType _ => ?_
  exact Yields.bind (yields_expect ofTokens_lexed _ _) fun _ _ => Yields.pure hexpr

omit hexpression in
include hselect in
theorem yields_exists : Yields Lexed (parseExists select) (Built py) := by
  refine Yields.bind (yields_expect ofTokens_lexed _ _) fun _ _ => ?_
  refine Yields.bind hselect fun _ _ => ?_
  exact Yields.bind (yields_expect ofTokens_lexed _ _) fun _ _ => Yields.pure fun h => h

include hselect

theorem yields_parenthesized : Yields Lexed (parseParenthesized select expression) (Built py) := by
  refine Yields.bind yields_check fun found _ => Yields.ite ?_ ?_
  · refine Yields.bind hselect fun _ _ => ?_
    exact Yields.bind (yields_expect ofTokens_lexed _ _) fun _ _ => Yields.pure fun h => h
  · refine Yields.bind hexpression fun expr hexpr => ?_
    exact Yields.bind (yields_expect ofTokens_lexed _ _) fun _ _ => Yields.pure hexpr

theorem yields_primary (hupper : UpperKeeps py) :
    Yields Lexed (parsePrimary py select expression fuel) (Built py) := by
  have hleaf : ∀ (value : Option Value), (∀ v ∈ value, Built py (.literal v)) →
      Yields Lexed (advance >>= fun _ => literal value) (Built py) := by
    intro value hvalue
    refine Yields.bind (yields_advance ofTokens_lexed) fun _ _ => ?_
    cases value with
    | none => exact Yields.throw _
    | some v => exact Yields.pure (hvalue v rfl)
  have htext : ∀ s : String, Built py (.literal (.str s)) := fun _ _ => trivial
  have hthen : ∀ m : ParserM Expr, Yields Lexed m (Built py) →
      Yields Lexed (advance >>= fun _ => m) (Built py) := fun m hm =>
    Yields.bind (yields_advance ofTokens_lexed) fun _ _ => hm
  have haggregate : ∀ token : Token, token.type ∈ [.kwCount, .kwSum, .kwAvg, .kwMin, .kwMax] →
      YieldsAt Lexed token (parseAggregateFunction py expression fuel) (Built py) := by
    rintro token htype p e p' hp rfl h
    exact built_aggregateFunction hexpression hupper hp htype h
  refine yields_look fun token => ?_
  split
  · exact yields_at token (hleaf (some .null) (by rintro _ ⟨⟩ _; trivial))
  · exact yields_at token (hleaf (some (.bool _)) (by rintro _ ⟨⟩ _; trivial))
  · apply yields_at token (hleaf ((py.parseInt (.str token.value)).map .int) fun v hv _ => ?_)
    obtain ⟨n, hn, rfl⟩ := Option.map_eq_some_iff.mp hv
    exact ⟨_, hn⟩
  · apply yields_at token (hleaf ((py.parseFloat (.str token.value)).map .float) fun v hv _ => ?_)
    obtain ⟨x, hx, rfl⟩ := Option.map_eq_some_iff.mp hv
    exact ⟨_, hx⟩
  · exact yields_at token (hleaf (some (.str _)) (by rintro _ ⟨⟩ _; trivial))
  · exact yields_at token (hthen _ (yields_caseExpr hexpression))
  · exact yields_at token (hthen _ (yields_castExpr hexpression))
  · exact yields_at token (hthen _ (yields_exists hselect))
  iterate 5
    next htype => exact haggregate token (by rw [htype]; decide)
  · exact yields_at token (hthen _ (yields_parenthesized hselect hexpression))
  iterate 2
    exact yields_at token (yields_identifier hexpression)
  · exact yields_at token (hthen _ (Yields.pure fun (_ : Covered (.starExpr none)) => rfl))
  · exact yields_at token (Yields.throw _)

end Grammar

section Operators

variable {py : Py} {select : ParserM Unit} {expression operand : ParserM Expr} {fuel : ℕ}

theorem yields_binaryLoop (hoperand : Yields Lexed operand (Built py))
    (op : TokenType → Option BinaryOpType) (n : ℕ) {left : Expr} (hleft : Built py left) :
    Yields Lexed (binaryLoop op operand n left) (Built py) := by
  induction n generalizing left with
  | zero => exact Yields.throw _
  | succ n ih =>
    refine Yields.bind yields_currentType fun type _ => ?_
    split
    · refine Yields.bind (yields_advance ofTokens_lexed) fun _ _ => ?_
      refine Yields.bind hoperand fun right hright => ih fun hall => ?_
      exact ⟨hleft hall.1, hright hall.2⟩
    · exact Yields.pure hleft

theorem yields_chain (hoperand : Yields Lexed operand (Built py))
    (op : TokenType → Option BinaryOpType) :
    Yields Lexed (operand >>= binaryLoop op operand fuel) (Built py) :=
  Yields.bind hoperand fun _ hleft => yields_binaryLoop hoperand op fuel hleft

theorem yields_unaryLoop (htighter : Yields Lexed operand (Built py)) (type : TokenType)
    (op : UnaryOpType) (n : ℕ) : Yields Lexed (unaryLoop type op operand n) (Built py) := by
  induction n with
  | zero => exact Yields.throw _
  | succ n ih =>
    refine Yields.bind (yields_match ofTokens_lexed) fun found _ => Yields.ite ?_ htighter
    exact Yields.bind ih fun e he => Yields.pure he

theorem yields_matchNegation : Yields Lexed matchNegation fun _ => True := by
  refine Yields.bind yields_check fun found _ => Yields.ite ?_ (Yields.pure trivial)
  refine Yields.bind (yields_peek 1) fun next _ => Yields.ite ?_ (Yields.pure trivial)
  exact Yields.bind (yields_advance ofTokens_lexed) fun _ _ => Yields.pure trivial

variable (hupper : UpperKeeps py) (hselect : Yields Lexed select fun _ => True)
  (hexpression : Yields Lexed expression (Built py))

include hupper hselect hexpression

theorem yields_addition : Yields Lexed (parseAddition py select expression fuel) (Built py) :=
  yields_chain (yields_chain (yields_unaryLoop (yields_primary hselect hexpression hupper) _ _ _) _) _

theorem yields_comparisonTail {left : Expr} (hleft : Built py left) :
    Yields Lexed (parseComparisonTail py select expression fuel left) (Built py) := by
  have hadd : Yields Lexed (parseAddition py select expression fuel) (Built py) :=
    yields_addition hupper hselect hexpression
  refine Yields.bind (yields_match ofTokens_lexed) fun found _ => Yields.ite ?_ ?_
  · refine Yields.bind (yields_match ofTokens_lexed) fun negated _ => ?_
    exact Yields.bind (yields_expect ofTokens_lexed _ _) fun _ _ => Yields.pure hleft
  refine Yields.bind yields_matchNegation fun negated _ => ?_
  refine Yields.bind (yields_match ofTokens_lexed) fun found _ => Yields.ite ?_ ?_
  · refine Yields.bind hadd fun low hlow => ?_
    refine Yields.bind (yields_expect ofTokens_lexed _ _) fun _ _ => ?_
    refine Yields.bind hadd fun high hhigh => Yields.pure fun hall => ?_
    exact ⟨hleft hall.1, hlow hall.2.1, hhigh hall.2.2⟩
  refine Yields.bind (yields_match ofTokens_lexed) fun found _ => Yields.ite ?_ ?_
  · refine Yields.bind (yields_expect ofTokens_lexed _ _) fun _ _ => ?_
    refine Yields.bind yields_check fun found _ => Yields.ite ?_ ?_
    · refine Yields.bind hselect fun _ _ => ?_
      refine Yields.bind (yields_expect ofTokens_lexed _ _) fun _ _ => Yields.pure fun hall => ?_
      exact absurd rfl hall.2.1
    · refine Yields.bind (yields_expressionListFrom hexpression fuel) fun values hvalues => ?_
      refine Yields.bind (yields_expect ofTokens_lexed _ _) fun _ _ => Yields.pure fun hall => ?_
      exact ⟨hleft hall.1, hvalues.1, hvalues.2 hall.2.2⟩
  refine Yields.bind (yields_match ofTokens_lexed) fun found _ => Yields.ite ?_ ?_
  · refine Yields.bind hadd fun pattern hpattern => Yields.pure fun hall => ?_
    exact ⟨hleft hall.1, hpattern hall.2⟩
  refine Yields.bind yields_currentType fun type _ => ?_
  split
  · refine Yields.bind (yields_advance ofTokens_lexed) fun _ _ => ?_
    refine Yields.bind hadd fun right hright => Yields.pure fun hall => ?_
    exact ⟨hleft hall.1, hright hall.2⟩
  · exact Yields.pure hleft

theorem yields_orExpr : Yields Lexed (parseOrExpr py select expression fuel) (Built py) := by
  have hcomparison : Yields Lexed (parseComparison py select expression fuel) (Built py) :=
    Yields.bind (yields_addition hupper hselect hexpression) fun _ hleft =>
      yields_comparisonTail hupper hselect hexpression hleft
  exact yields_chain (yields_chain (yields_unaryLoop hcomparison _ _ _) _) _

omit hexpression in
theorem yields_expression (n : ℕ) : Yields Lexed (parseExpression py select n) (Built py) := by
  induction n with
  | zero => exact Yields.throw _
  | succ n ih => exact yields_orExpr hupper hselect ih

end Operators

/-! ## The round trip -/

section RoundTrip

variable {py : Py}

/-- Some run of `_parse_expression` over tokens of the lexer returns the expression. -/
def Parses (py : Py) (e : Expr) : Prop :=
  ∃ (select : ParserM Unit) (fuel : ℕ) (p p' : Parser),
    (∀ p p', select p = .ok ((), p') → p'.tokens = p.tokens) ∧ Lexed p ∧
      parseExpression py select fuel p = .ok (e, p')

theorem printable_of_parses (hupper : UpperKeeps py) {e : Expr} (h : Parses py e)
    (hcovered : Covered e) : Printable py e := by
  obtain ⟨select, fuel, p, p', hselect, hlexed, hparse⟩ := h
  have hyields : Yields Lexed select fun _ => True := by
    intro p _ p' hp h
    refine ⟨fun token htoken => ?_, trivial⟩
    exact hp token (hselect p p' h ▸ htoken)
  exact (yields_expression hupper hyields fuel p e p' hlexed hparse).2 hcovered

/-- The tokens after which a printed expression stands alone. -/
def Delimits (l : Lexeme) : Prop := l.type ∈ [.rparen, .comma, .semicolon, .eof]

theorem Delimits.stops {l : Lexeme} (h : Delimits l) : Stops 0 l := by
  apply stops_of_none
  simp only [Delimits, List.mem_cons, List.not_mem_nil, or_false] at h
  rcases h with h | h | h | h <;> rw [h] <;> rfl

/-- Printing an expression that parsing can build and parsing it again gives the expression, and
exactly the printed tokens are consumed. -/
theorem parse_print (hupper : UpperKeeps py) {e : Expr} (he : Parses py e) (hcovered : Covered e)
    (sp : Spelling py) (select : ParserM Unit) :
    ∃ N, ∀ fuel ≥ N, ∀ (p : Parser) (next : Lexeme) (rest : List Lexeme),
      p.lexemes = print sp e ++ next :: rest → Delimits next →
        parseExpression py select fuel p = .ok (e, p.skip (print sp e).length) := by
  have hprintable := printable_of_parses hupper he hcovered
  have hreads : ReadsAt py select 0 (print sp e) e :=
    (readsAt_print sp hupper e hprintable).down (Nat.zero_le _) (exprLevel_le e)
  obtain ⟨N, hN⟩ := Filter.eventually_atTop.mp hreads.expression
  exact ⟨N, fun fuel hfuel p next rest hp hnext => hN fuel hfuel p next rest hp hnext.stops⟩

open Classical in
/-- Some spelling: any text that stands for a number, and every name quoted. -/
noncomputable def Spelling.quoted (py : Py) : Spelling py where
  integer n := if h : ∃ text, py.parseInt (.str text) = some n then h.choose else ""
  float x := if h : ∃ text, py.parseFloat (.str text) = some x then h.choose else ""
  name s := ⟨.quotedIdentifier, s⟩
  targetType s := [⟨.identifier, s⟩]
  integer_spec text n h := by
    have hex : ∃ text, py.parseInt (.str text) = some n := ⟨text, h⟩
    rw [dif_pos hex]
    exact hex.choose_spec
  float_spec text x h := by
    have hex : ∃ text, py.parseFloat (.str text) = some x := ⟨text, h⟩
    rw [dif_pos hex]
    exact hex.choose_spec
  name_spec s := .inr rfl
  targetType_spec s := .name .identifier s

/-- `NOT a BETWEEN b AND - (c + d) OR CASE WHEN e THEN f END IS NULL` -/
def mixedForms : Expr :=
  .binaryOp .or
    (.unaryOp .not (.betweenExpr (.columnRef none "a") (.columnRef none "b")
      (.unaryOp .negate (.binaryOp .add (.columnRef none "c") (.columnRef none "d"))) false))
    (.isNullExpr (.caseExpr none [(.columnRef none "e", .columnRef none "f")] none) false)

/-- A parser at the first of these tokens. -/
def parserOf (ls : List Lexeme) : Parser where
  tokens := (ls ++ [(⟨.eof, ""⟩ : Lexeme)]).map fun l => { toLexeme := l, line := 1, column := 1 }
  pos := 0
  nonempty := by simp

def mixedFormsLexemes : List Lexeme :=
  [⟨.kwNot, "NOT"⟩, ⟨.identifier, "a"⟩, ⟨.kwBetween, "BETWEEN"⟩, ⟨.identifier, "b"⟩,
    ⟨.kwAnd, "AND"⟩, ⟨.minus, "-"⟩, ⟨.lparen, "("⟩, ⟨.identifier, "c"⟩, ⟨.plus, "+"⟩,
    ⟨.identifier, "d"⟩, ⟨.rparen, ")"⟩, ⟨.kwOr, "OR"⟩, ⟨.kwCase, "CASE"⟩, ⟨.kwWhen, "WHEN"⟩,
    ⟨.identifier, "e"⟩, ⟨.kwThen, "THEN"⟩, ⟨.identifier, "f"⟩, ⟨.kwEnd, "END"⟩, ⟨.kwIs, "IS"⟩,
    ⟨.nullLiteral, "NULL"⟩]

theorem mixedForms_parses : Parses Py.ascii mixedForms :=
  ⟨pure (), 8, parserOf mixedFormsLexemes, (parserOf mixedFormsLexemes).skip 20,
    fun _ _ h => by cases h; rfl, by unfold Lexed; decide +kernel, rfl⟩

theorem parse_print_mixedForms :
    ∃ N, ∀ fuel ≥ N, ∀ (p : Parser) (next : Lexeme) (rest : List Lexeme),
      p.lexemes = print (Spelling.quoted Py.ascii) mixedForms ++ next :: rest → Delimits next →
        parseExpression Py.ascii (pure ()) fuel p =
          .ok (mixedForms, p.skip (print (Spelling.quoted Py.ascii) mixedForms).length) :=
  parse_print (by decide +kernel) mixedForms_parses
    (by simp [mixedForms, Covered, CoveredWhen, CoveredOption]) _ _

end RoundTrip

end PySQL.Parse
