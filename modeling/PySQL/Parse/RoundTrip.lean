import PySQL.Parse.Primaries

/-!
# A printed expression reads back

By induction on the expression: the tokens of each form are read by the method of its level, and in
front of them every looser method passes on what that one reads.
-/

namespace PySQL.Parse

open Lib Query

variable {py : Py} {select : ParserM Unit} (sp : Spelling py)

theorem exprLevel_le (e : Expr) : exprLevel e ≤ 7 := by
  unfold exprLevel
  split
  · next op _ _ => cases op <;> decide
  all_goals decide

section Forms

variable {w v : List Lexeme} {e left right : Expr}

/-- An operand in its place. -/
theorem ReadsAt.printAt {k : ℕ} (h : ReadsAt py select (exprLevel e) w e) (hk : k ≤ 7) :
    ReadsAt py select k (enclose (exprLevel e < k) w) e := by
  by_cases hlevel : exprLevel e < k
  · rw [enclose, if_pos (decide_eq_true hlevel)]
    exact (h.down (Nat.zero_le _) (exprLevel_le e)).enclosed.down hk le_rfl
  · rw [enclose, if_neg (by simpa using hlevel)]
    exact h.down (not_lt.mp hlevel) (exprLevel_le e)

theorem chainOp_opLevel {op : BinaryOpType} (h : opLevel op ≠ 3) :
    ∃ f, chainOp (opLevel op) = some f := by
  cases op <;> first | exact ⟨_, rfl⟩ | exact absurd rfl h

theorem readsAt_binary {op : BinaryOpType} (hleft : ReadsAt py select (leftLevel op) w left)
    (hright : ReadsAt py select (rightLevel op) v right) :
    ReadsAt py select (opLevel op) (w ++ opLexeme op :: v) (.binaryOp op left right) := by
  by_cases hop : opLevel op = 3
  · rw [leftLevel, if_pos hop] at hleft
    rw [rightLevel, hop] at hright
    rw [hop]
    exact readsAt_compare hleft hright hop
  · rw [leftLevel, if_neg hop] at hleft
    obtain ⟨f, hf⟩ := chainOp_opLevel hop
    have hlexeme := chainOp_opLexeme hf
    have henters := hleft.climbs
    obtain ⟨u, us, hw, hu⟩ := hleft.starts
    refine ⟨⟨u, us ++ opLexeme op :: v, by rw [hw]; rfl, hu⟩, ?_⟩
    rw [climbs_chain hf] at henters ⊢
    refine henters.step hlexeme ?_ hright.reads
    intro m hm
    rw [infixLevel_of_chainOp hf hlexeme] at hm
    cases hm
    exact Nat.lt_succ_self _

theorem readsAt_not (h : ReadsAt py select 2 w e) :
    ReadsAt py select 2 (⟨.kwNot, "NOT"⟩ :: w) (.unaryOp .not e) :=
  ⟨⟨_, _, rfl, 2, rfl, le_rfl⟩, unaryLoop_step h.climbs (List.mem_singleton_self _)⟩

theorem readsAt_negate (h : ReadsAt py select 6 w e) :
    ReadsAt py select 6 (⟨.minus, "-"⟩ :: w) (.unaryOp .negate e) :=
  ⟨⟨_, _, rfl, 6, rfl, le_rfl⟩, unaryLoop_step h.climbs (List.mem_singleton_self _)⟩

end Forms

section Calls

variable {ws : List (List Lexeme)} {args : List Expr} {distinct : Bool} {name : String}

theorem aggregateType_ne_none (h : name ∈ aggregateNames) : aggregateType name ≠ none := by
  simp only [aggregateNames, List.mem_cons, List.not_mem_nil, or_false] at h
  rcases h with rfl | rfl | rfl | rfl | rfl <;> exact Option.some_ne_none _

theorem onlyStar_eq (h : onlyStar args = true) : ∃ table, args = [.starExpr table] := by
  unfold onlyStar at h
  split at h
  · exact ⟨_, rfl⟩
  · cases h

/-- A call, under the keyword of an aggregate or under a name. -/
theorem readsAt_functionCall (hupper : ∀ s ∈ aggregateNames, py.upper s = s)
    (h : ReadEach py select (printAll sp args) args) (hargs : PrintableAll py args)
    (hdistinct : distinct = true → args = [] → name ∈ aggregateNames) :
    ReadsAt py select 7 (print sp (.functionCall name args distinct
      (decide (py.upper name ∈ aggregateNames))))
      (.functionCall name args distinct (decide (py.upper name ∈ aggregateNames))) := by
  have hword : print sp (.functionCall name args distinct
      (decide (py.upper name ∈ aggregateNames))) =
      callLexeme sp name args distinct (commaList (printAll sp args)) :: lparen ::
        (distinctLexemes distinct ++ commaList (printAll sp args) ++ [rparen]) := by
    rw [print, distinctLexemes, List.append_assoc]
    rfl
  rw [hword, callLexeme]
  cases htype : aggregateType name with
  | none =>
    refine readsAt_call (sp.name_spec name) h fun hd hnil => ?_
    exact aggregateType_ne_none (hdistinct hd hnil) htype
  | some type =>
    dsimp only
    split
    · next hkeyword =>
      apply readsAt_aggregate htype hupper
      cases hd : distinct with
      | true => exact reads_aggregateArgs h (.inl rfl)
      | false =>
        by_cases hstar : onlyStar args = true
        · obtain ⟨table, rfl⟩ := onlyStar_eq hstar
          obtain rfl : table = none := hargs.1
          exact reads_aggregateStar
        · apply reads_aggregateArgs h
          right
          simpa [StarFree, hd, hstar] using hkeyword
    · next hquoted =>
      refine readsAt_call (.inr rfl) h fun hd => ?_
      exact absurd (.inl hd) hquoted

end Calls

theorem printElse_eq (elseClause : Option Expr) :
    printElse sp elseClause = elseLexemes elseClause (printOperand sp elseClause) := by
  cases elseClause <;> rfl

/-- The words of the clauses of a CASE. -/
def clauseWords (clauses : List (Expr × Expr)) : List (List Lexeme × List Lexeme) :=
  clauses.map fun clause => (print sp clause.1, print sp clause.2)

theorem printWhen_eq (clauses : List (Expr × Expr)) :
    printWhen sp clauses = whenLexemes (clauseWords sp clauses) := by
  induction clauses with
  | nil => rw [printWhen]; rfl
  | cons clause rest ih => rw [printWhen, ih]; rfl

section Induction

/-- `upper` leaves the names of the aggregates, which are upper case, as they are. -/
abbrev UpperKeeps (py : Py) : Prop := ∀ s ∈ aggregateNames, py.upper s = s

mutual

theorem readsAt_print (hupper : UpperKeeps py) : ∀ e : Expr, Printable py e →
    ReadsAt py select (exprLevel e) (print sp e) e
  | .literal value, h => readsAt_literal sp h
  | .columnRef none column, _ => readsAt_column sp column
  | .columnRef (some table) column, _ => readsAt_qualified sp table column
  | .binaryOp op left right, h => by
    have hleft := (readsAt_print hupper left h.1).printAt (k := leftLevel op) (by cases op <;> decide)
    have hright := (readsAt_print hupper right h.2).printAt (k := rightLevel op) (by cases op <;> decide)
    exact readsAt_binary hleft hright
  | .unaryOp .not operand, h => by
    exact readsAt_not ((readsAt_print hupper operand h).printAt (by decide))
  | .unaryOp .negate operand, h => by
    exact readsAt_negate ((readsAt_print hupper operand h).printAt (by decide))
  | .functionCall name args distinct isAggregate, h => by
    obtain ⟨rfl, hdistinct, hargs⟩ := h
    exact readsAt_functionCall sp hupper (readEach_print hupper args hargs) hargs hdistinct
  | .starExpr table, h => by
    obtain rfl : table = none := h
    exact readsAt_star
  | .betweenExpr expr low high negated, h => by
    have hexpr := (readsAt_print hupper expr h.1).printAt (k := 4) (by decide)
    have hlow := (readsAt_print hupper low h.2.1).printAt (k := 4) (by decide)
    have hhigh := (readsAt_print hupper high h.2.2).printAt (k := 4) (by decide)
    exact readsAt_between hexpr hlow hhigh
  | .inExpr expr values negated, h => by
    have hexpr := (readsAt_print hupper expr h.1).printAt (k := 4) (by decide)
    exact readsAt_in hexpr (readEach_print hupper values h.2.2) h.2.1
  | .likeExpr expr pattern negated, h => by
    have hexpr := (readsAt_print hupper expr h.1).printAt (k := 4) (by decide)
    have hpattern := (readsAt_print hupper pattern h.2).printAt (k := 4) (by decide)
    exact readsAt_like hexpr hpattern
  | .isNullExpr expr negated, h => by
    have hexpr := (readsAt_print hupper expr h).printAt (k := 4) (by decide)
    exact readsAt_isNull hexpr
  | .caseExpr operand whenClauses elseClause, h => by
    obtain ⟨hoperand, hne, hwhen, helse⟩ := h
    rw [print, printElse_eq, printWhen_eq]
    exact readsAt_case (readOption_print hupper operand hoperand) (readWhen_print hupper whenClauses hwhen) hne
      (readOption_print hupper elseClause helse)
  | .castExpr expr targetType, h => by
    have hexpr := (readsAt_print hupper expr h).down (Nat.zero_le _) (exprLevel_le expr)
    exact readsAt_cast hexpr (sp.targetType_spec targetType)
  | .existsExpr, h => h.elim
  | .subqueryExpr, h => h.elim

theorem readEach_print (hupper : UpperKeeps py) : ∀ es : List Expr, PrintableAll py es →
    ReadEach py select (printAll sp es) es
  | [], _ => .nil
  | expr :: rest, h =>
    .cons ((readsAt_print hupper expr h.1).down (Nat.zero_le _) (exprLevel_le expr))
      (readEach_print hupper rest h.2)

theorem readOption_print (hupper : UpperKeeps py) : ∀ operand : Option Expr, PrintableOption py operand →
    ReadOption py select (printOperand sp operand) operand
  | none, _ => rfl
  | some operand, h => (readsAt_print hupper operand h).down (Nat.zero_le _) (exprLevel_le operand)

theorem readWhen_print (hupper : UpperKeeps py) : ∀ clauses : List (Expr × Expr), PrintableWhen py clauses →
    ReadWhen py select (clauseWords sp clauses) clauses
  | [], _ => .nil
  | (condition, result) :: rest, h =>
    .cons ⟨(readsAt_print hupper condition h.1.1).down (Nat.zero_le _) (exprLevel_le condition),
      (readsAt_print hupper result h.1.2).down (Nat.zero_le _) (exprLevel_le result)⟩
      (readWhen_print hupper rest h.2)

end

end Induction

end PySQL.Parse
