import PySQL.Parse.Follow

/-!
# Expressions follow the grammar

One lemma for each method below `_parse_expression`, from the bottom up.
-/

namespace PySQL.Parse

open Lib Query

section Expressions

open Phrase

variable {py : Py} {α : Type} {k fuel : ℕ}

/-- A loop over items; each takes a token, so the turns suffice. -/
theorem method_list {item : ParserM α} {attr : α → Bool} {p : Phrase} {n : ℕ}
    (hitem : Method py k 1 attr item p) (hn : k < n) :
    Method py k 1 plain (commaSeparated item n) (.list p) := by
  induction n generalizing k with
  | zero => omega
  | succ n ih =>
    apply Tracks.method (fun _ => id)
    refine hitem.seq fun first j hj => ?_
    refine tracks_ifTok (by decide) (fun j' hj' => ?_) (tracks_pure rfl)
    exact Method.last (ih (hitem.le (by omega)) (by omega)) (by omega) fun _ => rfl

theorem parseExpressionListFrom_eq (expression : ParserM Expr) (n : ℕ) :
    parseExpressionListFrom expression n = commaSeparated expression n := by
  induction n with
  | zero => rfl
  | succ n ih => rw [parseExpressionListFrom, commaSeparated, ih]

/-- The methods for a subquery and for a whole expression, after a token of what calls them. -/
def Inside (py : Py) (k : ℕ) (select : ParserM Unit) (expression : ParserM Expr) : Prop :=
  ∀ j < k, Method py j 1 plain select .select ∧
    ∀ c, Method py j 1 isColumn expression (.expression c)

section Primary

variable {select : ParserM Unit} {expression : ParserM Expr} {c : Bool}
  (hselect : Method py k 1 plain select .select)
  (hexpression : ∀ c, Method py k 1 isColumn expression (.expression c)) (hfuel : k < fuel)

theorem follows_advanced {p : Parser} (hp : p.Ended) :
    Follows py (p.skip 1) 0 plain nothing (.ok (p.current, p.skip 1)) := by
  have hpure : Tracks py ((scheme py).left (p.skip 1)) 0 plain
      (pure p.current : ParserM Token) nothing := tracks_pure rfl
  exact hpure (p.skip 1) hp (Nat.le_refl _)

/-- A token that is taken whatever it is. -/
theorem method_passed {q : Phrase} (hq : ∀ w, ¬ Refused py q w)
    (hrule : rules q = .pass nothing) : Method py k 0 plain advance q := by
  apply Tracks.method hq
  rw [hrule]
  exact fun p hp _ => Scheme.Follows.pass rest_skip (follows_advanced hp)

theorem method_typeName : Method py k 0 plain advance .typeName := by
  apply Tracks.method (fun _ => id)
  intro p hp hleft
  by_cases h : p.current.type = .eof
  · apply follows_yes hp (List.mem_singleton.mpr h)
    have hend : Method py k 0 plain advance .endAsName := method_passed (fun _ => id) rfl
    exact hend.self (Nat.le_refl 0) p hp hleft
  · apply follows_no hp (fun hin => h (List.mem_singleton.mp hin))
    have hne : grammar.kindAt p.lexemes 0 ≠ .eof := by
      rw [kindAt_lexemes hp]
      exact h
    have hany : Follows py p 1 plain (.any nothing) (.ok (p.current, p.skip 1)) :=
      Scheme.Follows.any rest_skip (left_skip py hp h) hne (follows_advanced hp)
    exact hany.weaken (Nat.zero_le 1)

theorem method_columnName : Method py k 0 plain advance .columnName := by
  apply Tracks.method (fun _ => id)
  intro p hp hleft
  by_cases h : p.current.type ∈ nameTypes
  · exact (follows_take hp h (by decide) (follows_advanced hp)).weaken (Nat.zero_le _)
  · apply follows_no hp h
    have hunnamed : Method py k 0 plain advance .unnamed := method_passed (fun _ => id) rfl
    exact hunnamed.self (Nat.le_refl 0) p hp hleft

theorem method_targetType : Method py k 0 plain parseTargetType .targetType := by
  apply Tracks.method (fun _ => id)
  refine (method_typeName.map fun token => token.value).seq fun type j _ => ?_
  refine tracks_ifTok (by decide) (fun i _ => ?_) (tracks_pure rfl)
  refine tracks_tok (by decide) fun param i _ => ?_
  exact tracks_tok (by decide) fun _ _ _ => tracks_pure rfl

include hexpression

theorem method_castExpr : Method py k 1 isColumn (parseCastExpr expression) (.castExpr c) := by
  apply Tracks.method (fun _ => id)
  refine tracks_tok (by decide) fun _ j hj => ?_
  refine ((hexpression c).le (by omega)).seq fun expr j' hj' => ?_
  refine tracks_tok (by decide) fun _ j'' hj'' => ?_
  refine method_targetType.seq fun targetType _ _ => ?_
  exact tracks_tok (by decide) fun _ _ _ => tracks_pure rfl

include hfuel

theorem method_expressionList :
    Method py k 1 plain (parseExpressionList expression fuel) (.list (.expression c)) := by
  rw [parseExpressionList, parseExpressionListFrom_eq]
  exact method_list (hexpression c) hfuel

theorem method_callArgs : Method py k 0 plain (parseCallArgs expression fuel) .callArgs := by
  apply Tracks.method (fun _ => id)
  refine tracks_ifAt (tracks_pure rfl) ?_
  refine (method_optional (by decide)).seq fun distinct j hj => ?_
  exact (method_expressionList (fun c => (hexpression c).le (by omega)) (by omega)).last (by omega) fun _ => rfl

theorem method_aggregateArgs :
    Method py k 0 plain (parseAggregateArgs expression fuel) .aggregateArgs := by
  apply Tracks.method (fun _ => id)
  refine tracks_ifAdvance (by decide) (fun _ j hj => tracks_pure rfl) ?_
  refine (method_optional (by decide)).seq fun distinct j hj => ?_
  refine tracks_ifAt (tracks_pure rfl) ?_
  exact (method_expressionList (fun c => (hexpression c).le (by omega)) (by omega)).last (by omega) fun _ => rfl

theorem method_whenClauses {n : ℕ} (hn : k < n) (first : Bool) :
    Method py k 0 plain (parseWhenClauses expression n) (.whenClauses c first) := by
  induction n generalizing k first with
  | zero => omega
  | succ n ih =>
    apply Tracks.method (fun _ => id)
    refine tracks_ifTok (by decide) (fun j hj => ?_) ?_
    · refine ((hexpression c).le (by omega)).seq fun condition j hj => ?_
      refine tracks_tok (by decide) fun _ j hj => ?_
      refine ((hexpression c).le (by omega)).seq fun result j hj => ?_
      exact (ih (fun c => (hexpression c).le (by omega)) (by omega) (by omega) false).last (by omega)
        fun _ => rfl
    · cases first with
      | false => exact tracks_pure rfl
      | true =>
        have hbare : Method py k 0 plain (pure [] : ParserM (List (Expr × Expr))) .bareCase :=
          Tracks.method (fun _ => id) (tracks_pure rfl)
        exact hbare.self (by omega)

theorem method_caseExpr : Method py k 1 isColumn (parseCaseExpr expression fuel) (.caseExpr c) := by
  have hoperand : Method py k 0 plain (parseCaseOperand expression) (.caseOperand c) := by
    apply Tracks.method (fun _ => id)
    refine tracks_ifAt (tracks_pure rfl) ?_
    exact (hexpression c).last (by omega) fun _ => rfl
  have helse : Method py k 0 plain (parseElse expression)
      (.clause .kwElse (.expression c)) := by
    apply Tracks.method (fun _ => id)
    refine tracks_ifTok (by decide) (fun j hj => ?_) (tracks_pure rfl)
    exact ((hexpression c).le (by omega)).last (by omega) fun _ => rfl
  apply Tracks.method (fun _ => id)
  refine hoperand.seq fun operand j hj => ?_
  refine ((method_whenClauses hexpression hfuel hfuel true).le (by omega)).seq
    fun clauses j hj => ?_
  refine (helse.le (by omega)).seq fun elseClause j hj => ?_
  exact tracks_tok (by decide) fun _ _ _ => tracks_pure rfl

include hselect

omit hfuel in
theorem method_parenthesized :
    Method py k 0 isColumn (parseParenthesized select expression) (.parenthesized c) := by
  apply Tracks.method (fun _ => id)
  refine tracks_ifAt ?_ ?_
  · refine hselect.seq fun _ j hj => ?_
    exact tracks_tok (by decide) fun _ _ _ => tracks_pure rfl
  · refine (hexpression c).bind fun expr j hj => ?_
    exact tracks_tok (by decide) fun _ _ _ => Scheme.Tracks.pure expr rfl

omit hexpression hfuel in
theorem method_exists : Method py k 0 isColumn (parseExists select) (.parens .select) := by
  apply Tracks.method (fun _ => id)
  refine tracks_tok (by decide) fun _ j hj => ?_
  refine (hselect.le (by omega)).seq fun _ j hj => ?_
  exact tracks_tok (by decide) fun _ _ _ => tracks_pure rfl

end Primary

section Operand

variable {select : ParserM Unit} {expression : ParserM Expr} {c : Bool}

theorem follows_literal {p : Parser} {type : TokenType} {q : Phrase} {value : Option Value}
    (hp : p.Ended) (htype : p.current.type = type) (heof : type ≠ .eof)
    (hrule : rules q = tok type) (hrefused : Refused py q p.lexemes ↔ value = none) :
    Follows py p 1 isColumn (.call q .done) ((advance >>= fun _ => literal value) p) := by
  have hrefused : Refused py q p.lexemes ↔ value.map Expr.literal = none :=
    hrefused.trans Option.map_eq_none_iff.symm
  have hnumber := follows_number hp htype heof hrule hrefused fun e he => by
    obtain ⟨v, -, rfl⟩ := Option.map_eq_some_iff.mp he
    exact (rfl : isColumn (.literal v) = false)
  cases value with
  | none => exact hnumber
  | some v => exact hnumber

variable (hinside : Inside py k select expression) (hfuel : k < fuel)

include hinside hfuel

theorem follows_aggregate {p : Parser} (hp : p.Ended) (hleft : (scheme py).left p ≤ k)
    (hin : p.current.type ∈ aggregateTypes) :
    Follows py p 1 isColumn (.call .aggregate .done)
      (parseAggregateFunction py expression fuel p) := by
  apply follows_call (fun _ => id)
  have hne : p.current.type ≠ .eof := fun heq => absurd (heq ▸ hin) (by decide)
  have hlt := left_skip py hp hne
  have hrest : Tracks py ((scheme py).left (p.skip 1)) 0 isColumn (do
      let _ ← expect .lparen
      let args ← parseAggregateArgs expression fuel
      let _ ← expect .rparen
      return functionCall py p.current.value args.1 args.2 true)
      (tok .lparen <| Phrase.aggregateArgs.seq <| tok .rparen) := by
    refine tracks_tok (by decide) fun _ j hj => ?_
    refine (method_aggregateArgs (hinside j (by omega)).2 (by omega)).seq fun args j hj => ?_
    exact tracks_tok (by decide) fun _ _ _ => tracks_pure rfl
  exact follows_token hp hin (by decide) (hrest (p.skip 1) hp (Nat.le_refl _))

theorem follows_identifier {p : Parser} (hp : p.Ended) (hleft : (scheme py).left p ≤ k)
    (hin : p.current.type ∈ nameTypes) :
    Follows py p 1 isColumn (.call .identifier .done) (parseIdentifier py expression fuel p) := by
  apply follows_call (fun _ => id)
  have hne : p.current.type ≠ .eof := fun heq => absurd (heq ▸ hin) (by decide)
  have hlt := left_skip py hp hne
  have hrest : Tracks py ((scheme py).left (p.skip 1)) 0 isColumn (do
      if ← matchToken [.lparen] then
        let args ← parseCallArgs expression fuel
        let _ ← expect .rparen
        return functionCall py p.current.value args.1 args.2
      if ← matchToken [.dot] then
        let column ← advanceValue
        return .columnRef (some p.current.value) column
      return .columnRef none p.current.value)
      (ifTok [.lparen] (Phrase.callArgs.seq <| tok .rparen) <|
        ifTok [.dot] (Phrase.columnName.seq (.done true)) (.done true)) := by
    refine tracks_ifTok (by decide) (fun j hj => ?_) ?_
    · refine (method_callArgs (hinside j (by omega)).2 (by omega)).seq fun args j hj => ?_
      exact tracks_tok (by decide) fun _ _ _ => tracks_pure rfl
    · refine tracks_ifTok (by decide) (fun j hj => ?_) (Scheme.Tracks.pure _ rfl)
      exact (method_columnName.map fun token => token.value).seq fun column _ _ => Scheme.Tracks.pure _ rfl
  exact follows_token hp hin (by decide) (hrest (p.skip 1) hp (Nat.le_refl _))

theorem method_primary :
    Method py k 1 isColumn (parsePrimary py select expression fuel) (.primary c) := by
  apply Tracks.method (fun _ => id)
  refine tracks_look fun token => ?_
  show TracksAt py k 1 isColumn token _ (primaryRule c)
  have hleaf : ∀ e, isColumn e = false →
      token.type ∈ [.nullLiteral, .booleanLiteral, .stringLiteral] →
      TracksAt py k 1 isColumn token (advance >>= fun _ => pure e) (primaryRule c) := by
    rintro e he hin p hp hleft rfl
    exact follows_taken hp hleft hin (by decide) fun j _ => tracks_pure he
  have haggregate : token.type ∈ aggregateTypes →
      TracksAt py k 1 isColumn token (parseAggregateFunction py expression fuel)
        (primaryRule c) := by
    rintro hin p hp hleft rfl
    have hout : ∀ types : List TokenType, (∀ t ∈ aggregateTypes, t ∉ types) → p.current.type ∉ types :=
      fun _ h => h _ hin
    unfold primaryRule
    iterate 6 refine follows_no hp (hout _ (by decide)) ?_
    exact follows_yes hp hin (follows_aggregate hinside hfuel hp hleft hin)
  have hname : token.type ∈ nameTypes →
      TracksAt py k 1 isColumn token (parseIdentifier py expression fuel) (primaryRule c) := by
    rintro hin p hp hleft rfl
    have hout : ∀ types : List TokenType, (∀ t ∈ nameTypes, t ∉ types) → p.current.type ∉ types :=
      fun _ h => h _ hin
    unfold primaryRule
    iterate 8 refine follows_no hp (hout _ (by decide)) ?_
    exact follows_yes hp hin (follows_identifier hinside hfuel hp hleft hin)
  split
  · next ht => exact hleaf _ rfl (by rw [ht]; decide)
  · next ht => exact hleaf _ rfl (by rw [ht]; decide)
  · next ht =>
    rintro p hp hleft rfl
    unfold primaryRule
    refine follows_no hp (by rw [ht]; decide) ?_
    refine follows_yes hp (by rw [ht]; decide) ?_
    apply follows_literal hp ht (by decide) rfl
    rw [refused_integer hp ht, Option.map_eq_none_iff]
  · next ht =>
    rintro p hp hleft rfl
    unfold primaryRule
    iterate 2 refine follows_no hp (by rw [ht]; decide) ?_
    refine follows_yes hp (by rw [ht]; decide) ?_
    apply follows_literal hp ht (by decide) rfl
    rw [refused_float hp ht, Option.map_eq_none_iff]
  · next ht => exact hleaf _ rfl (by rw [ht]; decide)
  · next ht =>
    rintro p hp hleft rfl
    unfold primaryRule
    repeat refine follows_no hp (by rw [ht]; decide) ?_
    refine follows_taken hp hleft (by rw [ht]; decide) (by decide) fun j hj => ?_
    exact (method_caseExpr (hinside j (by omega)).2 (by omega)).weaken (Nat.zero_le 1)
  · next ht =>
    rintro p hp hleft rfl
    unfold primaryRule
    repeat refine follows_no hp (by rw [ht]; decide) ?_
    refine follows_taken hp hleft (by rw [ht]; decide) (by decide) fun j hj => ?_
    exact (method_castExpr (hinside j (by omega)).2).weaken (Nat.zero_le 1)
  · next ht =>
    rintro p hp hleft rfl
    unfold primaryRule
    repeat refine follows_no hp (by rw [ht]; decide) ?_
    refine follows_taken hp hleft (by rw [ht]; decide) (by decide) fun j hj => ?_
    exact method_exists (hinside j (by omega)).1
  iterate 5
    next ht => exact haggregate (by rw [ht]; decide)
  · next ht =>
    rintro p hp hleft rfl
    unfold primaryRule
    repeat refine follows_no hp (by rw [ht]; decide) ?_
    refine follows_taken hp hleft (by rw [ht]; decide) (by decide) fun j hj => ?_
    exact method_parenthesized (hinside j (by omega)).1 (hinside j (by omega)).2
  iterate 2
    next ht => exact hname (by rw [ht]; decide)
  · next ht =>
    rintro p hp hleft rfl
    unfold primaryRule
    repeat refine follows_no hp (by rw [ht]; decide) ?_
    refine follows_yes hp (by rw [ht]; decide) (follows_call (fun _ => id) ?_)
    have hpure : Tracks py ((scheme py).left (p.skip 1)) 0 isColumn
        (pure (.starExpr none) : ParserM Expr) nothing := tracks_pure rfl
    exact follows_token hp (by rw [ht]; decide) (by decide) (hpure (p.skip 1) hp (Nat.le_refl _))
  · rintro p hp hleft rfl
    unfold primaryRule
    iterate 10 refine follows_no hp (by simp_all [aggregateTypes, nameTypes]) ?_
    exact tracks_reject _ _ p hp hleft

end Operand

section Operators

variable {operand : ParserM Expr} {q : Phrase} {op : TokenType → Option BinaryOpType}
  {ops : List TokenType} {n : ℕ}

theorem method_binaryLoop (hops : ∀ t, t ∈ ops ↔ (op t).isSome = true) (heof : .eof ∉ ops)
    (hoperand : Method py k 1 isColumn operand q) (hn : k < n) (left : Expr) :
    Method py k 0 isColumn (binaryLoop op operand n left) (.operators ops q (isColumn left)) := by
  induction n generalizing k left with
  | zero => omega
  | succ n ih =>
    apply Tracks.method (fun _ => id)
    intro p hp hleft
    have hcurrent : currentType p = .ok (p.current.type, p) := rfl
    rw [binaryLoop, Reader.bind_ok hcurrent]
    cases hop : op p.current.type with
    | none =>
      apply follows_no hp
      · rw [hops, hop]
        exact Bool.false_ne_true
      · exact Scheme.Tracks.pure left rfl p hp hleft
    | some o =>
      refine follows_taken hp hleft ((hops _).mpr (by rw [hop]; rfl)) heof fun j hj => ?_
      refine (hoperand.le (by omega)).seq fun right j hj => ?_
      exact ih (hoperand.le (by omega)) (by omega) (.binaryOp o left right)

theorem tracks_chain (hops : ∀ t, t ∈ ops ↔ (op t).isSome = true) (heof : .eof ∉ ops)
    (hoperand : Method py k 1 isColumn operand q) (hn : k < n) :
    Tracks py k 1 isColumn (operand >>= fun left => binaryLoop op operand n left)
      (chain ops q) := by
  refine hoperand.bind fun left j hj => ?_
  exact method_binaryLoop hops heof (hoperand.le (by omega)) (by omega) left

theorem method_unaryLoop {type : TokenType} {unop : UnaryOpType} (heof : type ≠ .eof)
    (hoperand : Method py k 1 isColumn operand q) (hn : k < n) :
    Method py k 1 isColumn (unaryLoop type unop operand n) (.unaryOperators type q) := by
  induction n generalizing k with
  | zero => omega
  | succ n ih =>
    apply Tracks.method (fun _ => id)
    refine tracks_ifTok (by simpa [eq_comm] using heof) (fun j hj => ?_) hoperand
    exact (ih (hoperand.le (by omega)) (by omega)).last (by omega) fun _ => rfl

end Operators

section Levels

variable {select : ParserM Unit} {expression : ParserM Expr} {c : Bool}
  (hinside : Inside py k select expression) (hfuel : k < fuel)

include hinside hfuel

theorem method_addition :
    Method py k 1 isColumn (parseAddition py select expression fuel) (.addition c) := by
  have hunary : Method py k 1 isColumn (parseUnary py select expression fuel) (.unary c) := by
    apply Tracks.method (fun _ => id)
    exact method_unaryLoop (by decide) (method_primary hinside hfuel) hfuel
  have hmultiplication : Method py k 1 isColumn (parseMultiplication py select expression fuel)
      (.multiplication c) := by
    apply Tracks.method (fun _ => id)
    exact tracks_chain (by intro t; cases t <;> decide) (by decide) hunary hfuel
  apply Tracks.method (fun _ => id)
  exact tracks_chain (by intro t; cases t <;> decide) (by decide) hmultiplication hfuel

theorem method_inList (negated : Bool) (left : Expr) :
    Method py k 1 isColumn (parseIn select expression fuel left negated) (.inList c) := by
  apply Tracks.method (fun _ => id)
  refine tracks_tok (by decide) fun _ j hj => ?_
  refine tracks_ifAt ?_ ?_
  · refine (hinside j (by omega)).1.seq fun _ j hj => ?_
    exact tracks_tok (by decide) fun _ _ _ => tracks_pure rfl
  · refine (method_expressionList (hinside j (by omega)).2 (by omega)).seq fun values j hj => ?_
    exact tracks_tok (by decide) fun _ _ _ => tracks_pure rfl

omit hinside hfuel in
theorem method_isTest (left : Expr) : Method py k 1 isColumn (parseIs left) .isTest := by
  apply Tracks.method (fun _ => id)
  refine (method_optional (by decide)).seq fun negated j hj => ?_
  exact tracks_tok (by decide) fun _ _ _ => tracks_pure rfl

/-- `parseComparisonTail` from `matchNegation` on. -/
def afterNegation (py : Py) (select : ParserM Unit) (expression : ParserM Expr) (fuel : ℕ)
    (left : Expr) (negated : Bool) : ParserM Expr := do
  if ← matchToken [.kwBetween] then
    return ← parseBetween py select expression fuel left negated
  if ← matchToken [.kwIn] then
    return ← parseIn select expression fuel left negated
  if ← matchToken [.kwLike] then
    let pattern ← parseAddition py select expression fuel
    return .likeExpr left pattern negated
  match comparisonOp (← currentType) with
  | some op => do
    let _ ← advance
    let right ← parseAddition py select expression fuel
    return .binaryOp op left right
  | none => return left

omit hinside hfuel in
theorem parseComparisonTail_eq (left : Expr) :
    parseComparisonTail py select expression fuel left = (do
      if ← matchToken [.kwIs] then
        return ← parseIs left
      let negated ← matchNegation
      afterNegation py select expression fuel left negated) :=
  rfl

theorem follows_predicate (left : Expr) (negated : Bool) {p : Parser} (hp : p.Ended)
    (hleft : (scheme py).left p ≤ k) (hin : p.current.type ∈ predicateStart) :
    Follows py p 1 isColumn (.call (.predicate c) .done)
      (afterNegation py select expression fuel left negated p) := by
  have haddition : Method py k 1 isColumn (parseAddition py select expression fuel) (.addition c) :=
    method_addition hinside hfuel
  apply follows_call (fun _ => id)
  refine follows_ifTok hp hleft (by decide) (fun j hj => ?_) fun hbetween => ?_
  · refine (haddition.le (by omega)).seq fun low j hj => ?_
    refine tracks_tok (by decide) fun _ j hj => ?_
    exact (haddition.le (by omega)).last (by omega) fun _ => rfl
  refine follows_ifTok hp hleft (by decide) (fun j hj => ?_) fun hlist => ?_
  · have hlist := method_inList (c := c) hinside hfuel negated left
    exact (hlist.le (by omega)).weaken (Nat.zero_le 1)
  · have hlike : p.current.type ∈ [.kwLike] := by
      simp only [predicateStart, List.mem_cons, List.not_mem_nil, or_false] at hin hbetween hlist ⊢
      tauto
    rw [Reader.bind_ok (matchToken_true hlike), if_pos rfl]
    have hlt := left_skip py hp fun heq => absurd (heq ▸ hlike) (by decide)
    have hpattern : Tracks py ((scheme py).left (p.skip 1)) 0 isColumn
        (parseAddition py select expression fuel >>= fun pattern =>
          pure (.likeExpr left pattern negated)) (Phrase.addition c).seq :=
      (haddition.le (by omega)).last (by omega) fun _ => rfl
    exact follows_token hp hlike (by decide) (hpattern (p.skip 1) hp (Nat.le_refl _))

theorem tracks_afterNegation (left : Expr) (negated : Bool) :
    Tracks py k 0 isColumn (afterNegation py select expression fuel left negated)
      (plainTailRule c (isColumn left)) := by
  intro p hp hleft
  by_cases hin : p.current.type ∈ predicateStart
  · apply follows_yes hp hin
    exact (follows_predicate hinside hfuel left negated hp hleft hin).weaken
      (Nat.zero_le _)
  · apply follows_no hp hin
    have hout : ∀ type ∈ predicateStart, p.current.type ∉ [type] :=
      fun type htype h => hin (List.mem_singleton.mp h ▸ htype)
    have hrun : afterNegation py select expression fuel left negated p =
        (match comparisonOp p.current.type with
          | some op => advance >>= fun _ => parseAddition py select expression fuel >>= fun right =>
            pure (Expr.binaryOp op left right)
          | none => (pure left : ParserM Expr)) p := by
      unfold afterNegation
      rw [Reader.bind_ok (matchToken_false (hout _ (by decide))), if_neg Bool.false_ne_true,
        Reader.bind_ok (matchToken_false (hout _ (by decide))), if_neg Bool.false_ne_true,
        Reader.bind_ok (matchToken_false (hout _ (by decide))), if_neg Bool.false_ne_true]
      rfl
    have hops : p.current.type ∈ comparisonOps ↔ (comparisonOp p.current.type).isSome = true := by
      cases p.current.type <;> decide
    rw [hrun]
    cases hop : comparisonOp p.current.type with
    | none =>
      apply follows_no hp
      · rw [hops, hop]
        exact Bool.false_ne_true
      · exact Scheme.Tracks.pure left rfl p hp hleft
    | some o =>
      refine follows_taken hp hleft (hops.mpr (by rw [hop]; rfl)) (by decide) fun j hj => ?_
      have haddition := method_addition (c := c) hinside hfuel
      exact (haddition.le (by omega)).last (by omega) fun _ => rfl

omit hinside hfuel in
theorem matchNegation_eq (p : Parser) :
    matchNegation p =
      if p.current.type = .kwNot ∧ (p.peek 1).type ∈ predicateStart then .ok (true, p.skip 1)
      else .ok (false, p) := by
  show (if decide (p.current.type ∈ [TokenType.kwNot]) = true then _ else _ : ParserM Bool) p = _
  by_cases hnot : p.current.type = .kwNot
  · rw [if_pos (by simpa using hnot)]
    show (if (p.peek 1).type ∈ predicateStart then _ else _ : ParserM Bool) p = _
    by_cases hnext : (p.peek 1).type ∈ predicateStart
    · rw [if_pos hnext, if_pos ⟨hnot, hnext⟩]
      rfl
    · rw [if_neg hnext, if_neg fun h => hnext h.2]
      rfl
  · rw [if_neg (by simpa using hnot), if_neg fun h => hnot h.1]
    rfl

theorem method_comparisonTail (left : Expr) :
    Method py k 0 isColumn (parseComparisonTail py select expression fuel left)
      (.comparisonTail c (isColumn left)) := by
  have hplain : Tracks py k 0 isColumn (afterNegation py select expression fuel left false)
      (plainTailRule c (isColumn left)) :=
    tracks_afterNegation hinside hfuel left false
  apply Tracks.method (fun _ => id)
  rw [parseComparisonTail_eq]
  refine tracks_ifTok (by decide) (fun j hj => ?_) ?_
  · exact (method_isTest left).weaken (Nat.zero_le 1)
  intro p hp hleft
  have hpeek : (scheme py).grammar.kindAt ((scheme py).rest p) 1 = (p.peek 1).type :=
    kindAt_lexemes hp 1
  by_cases hnot : p.current.type = .kwNot
  · apply follows_yes hp (List.mem_singleton.mpr hnot)
    by_cases hnext : (p.peek 1).type ∈ predicateStart
    · have hskip : matchNegation p = .ok (true, p.skip 1) := by
        rw [matchNegation_eq, if_pos ⟨hnot, hnext⟩]
      rw [Reader.bind_ok hskip]
      have hlt := left_skip py hp (by rw [hnot]; decide)
      have hpredicate : Follows py (p.skip 1) 1 isColumn (.call (.predicate c) .done)
          (afterNegation py select expression fuel left true (p.skip 1)) :=
        follows_predicate hinside hfuel left true hp (by omega) hnext
      refine Scheme.Follows.yes (hpeek ▸ hnext) ?_
      exact (follows_token hp (List.mem_singleton.mpr hnot) (by decide) hpredicate).weaken
        (Nat.zero_le _)
    · have hstay : matchNegation p = .ok (false, p) := by
        rw [matchNegation_eq, if_neg fun h => hnext h.2]
      rw [Reader.bind_ok hstay]
      exact Scheme.Follows.no (hpeek ▸ hnext) (hplain p hp hleft)
  · apply follows_no hp (fun h => hnot (List.mem_singleton.mp h))
    have hstay : matchNegation p = .ok (false, p) := by
      rw [matchNegation_eq, if_neg fun h => hnot h.1]
    rw [Reader.bind_ok hstay]
    exact hplain p hp hleft

theorem method_comparison :
    Method py k 1 isColumn (parseComparison py select expression fuel) (.comparison c) := by
  apply Tracks.method (fun _ => id)
  refine (method_addition hinside hfuel).bind fun left j hj => ?_
  exact (method_comparisonTail hinside hfuel left).le (by omega)

theorem tracks_orExpr :
    Tracks py k 1 isColumn (parseOrExpr py select expression fuel) (rules (.expression c)) := by
  have hnot : Method py k 1 isColumn (parseNotExpr py select expression fuel) (.notExpr c) := by
    apply Tracks.method (fun _ => id)
    exact method_unaryLoop (by decide) (method_comparison hinside hfuel) hfuel
  have hand : Method py k 1 isColumn (parseAndExpr py select expression fuel) (.andExpr c) := by
    apply Tracks.method (fun _ => id)
    exact tracks_chain (by intro t; cases t <;> decide) (by decide) hnot hfuel
  exact tracks_chain (by intro t; cases t <;> decide) (by decide) hand hfuel

end Levels

/-- With fuel for two tokens more than are left. -/
theorem method_expression {select : ParserM Unit} {n : ℕ} (hn : k + 2 ≤ n)
    (hselect : Method py k 1 plain select .select) (c : Bool) :
    Method py k 1 isColumn (parseExpression py select n) (.expression c) := by
  induction n generalizing k c with
  | zero => omega
  | succ n ih =>
    apply Tracks.method (fun _ => id)
    apply tracks_orExpr _ (by omega)
    intro j hj
    exact ⟨hselect.le (by omega), ih (by omega) (hselect.le (by omega))⟩

end Expressions

end PySQL.Parse
