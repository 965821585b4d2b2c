import PySQL.Parse.Levels

/-!
# What the methods below the levels read

Lists of expressions, the primary expressions and the forms that follow the left side of a
comparison, each from what its parts read.
-/

namespace PySQL.Parse

open Lib Query

variable {py : Py} {select : ParserM Unit} {k : ℕ} {l : Lexeme} {w v : List Lexeme} {e : Expr}

theorem reads_current {ι β : Type} {F : Filter ι} {f : Token → ι → ParserM β} {q : ι → ParserM β}
    {b : β} {stop : Lexeme → Prop} (hq : Reads Parser.tape F q (l :: v) b stop)
    (hf : ∀ token : Token, token.toLexeme = l → f token = q) :
    Reads Parser.tape F (fun n => current >>= fun token => f token n) (l :: v) b stop := by
  refine reads_look (fun s u us hs (hu : u = l) => ?_) hq (.cons rfl)
  exact ⟨s.current, rfl, hf _ ((Parser.current_eq hs).trans hu)⟩

/-- The whole expression is the loosest level. -/
theorem ReadsAt.expression (h : ReadsAt py select 0 w e) :
    Reads Parser.tape .atTop (parseExpression py select) w e (Stops 0) := by
  apply (h.reads.comp (Filter.tendsto_sub_atTop_nat 1)).congr
  filter_upwards [Filter.eventually_gt_atTop 0] with n hn
  obtain ⟨m, rfl⟩ : ∃ m, n = m + 1 := ⟨n - 1, by omega⟩
  rfl

/-- In parentheses an expression of any level is a primary one. -/
theorem ReadsAt.enclosed (h : ReadsAt py select 0 w e) :
    ReadsAt py select 7 (lparen :: (w ++ [rparen])) e := by
  refine ⟨⟨_, _, rfl, 7, rfl, le_rfl⟩, ?_⟩
  have hclose : Reads Parser.tape .atTop (fun n => parseExpression py select n >>= fun expr =>
      expect .rparen >>= fun _ => pure expr) (w ++ [rparen]) e (Stops 7) :=
    Reads.bind h.expression (reads_expect "" Reads.pure) (.cons (stops_of_none rfl 0))
  have hread : Reads Parser.tape .atTop (fun n => advance >>= fun _ =>
      parseParenthesized select (parseExpression py select n)) (lparen :: (w ++ [rparen])) e
      (Stops 7) :=
    reads_advance (reads_ifNoCheck hclose (h.before_append (fun u hu => hu.not_mem (by decide)) _))
  exact reads_current hread (by rintro ⟨_, _, _⟩ rfl; rfl)

/-! ## Lists -/

/-- What follows a list of expressions. -/
def EndsList (l : Lexeme) : Prop := Stops 0 l ∧ l.type ≠ .comma

theorem endsList_rparen : EndsList rparen := ⟨stops_of_none rfl 0, by decide⟩

/-- The words of a list, with commas between them. -/
def commaList : List (List Lexeme) → List Lexeme := List.intercalate [comma]

theorem commaList_cons (w w' : List Lexeme) (ws : List (List Lexeme)) :
    commaList (w :: w' :: ws) = w ++ comma :: commaList (w' :: ws) := by
  simp [commaList, List.intercalate]

theorem commaList_singleton (w : List Lexeme) : commaList [w] = w := by
  simp [commaList, List.intercalate]

/-- Each word reads as the expression at its place. -/
abbrev ReadEach (py : Py) (select : ParserM Unit) (ws : List (List Lexeme)) (es : List Expr) : Prop :=
  List.Forall₂ (ReadsAt py select 0) ws es

theorem readsList_from {ws : List (List Lexeme)} {es : List Expr} (h : ReadEach py select ws es)
    (hne : es ≠ []) :
    LoopReads Parser.tape (fun n m => parseExpressionListFrom (parseExpression py select n) m)
      (commaList ws) es EndsList := by
  induction h with
  | nil => exact absurd rfl hne
  | @cons w e ws es he hes ih =>
    apply LoopReads.of_turn
    cases hes with
    | nil =>
      rw [commaList_singleton]
      have hread : Reads Parser.tape (.atTop ×ˢ .atTop)
          (fun n : ℕ × ℕ => parseExpressionListFrom (parseExpression py select n.1) (n.2 + 1))
          (w ++ []) [e] EndsList := by
        refine Reads.bind he.expression.inLoop ?_ (.nil fun t ht => ht.1)
        exact reads_ifNoMatch Reads.pure (.nil fun t ht => by simpa using ht.2)
      rwa [List.append_nil] at hread
    | cons he' hes' =>
      rw [commaList_cons]
      refine Reads.bind he.expression.inLoop ?_ (.cons (stops_of_none rfl 0))
      exact reads_ifMatch (List.mem_singleton_self _) (Reads.map (ih (List.cons_ne_nil _ _)) _)

theorem readsList {ws : List (List Lexeme)} {es : List Expr} (h : ReadEach py select ws es)
    (hne : es ≠ []) :
    Reads Parser.tape .atTop (fun n => parseExpressionList (parseExpression py select n) n)
      (commaList ws) es EndsList :=
  LoopReads.reads (readsList_from h hne)

/-- A list begins like its first expression. -/
theorem starts_list {ws : List (List Lexeme)} {es : List Expr} (h : ReadEach py select ws es)
    (hne : es ≠ []) : ∃ u us, commaList ws = u :: us ∧ Starts 0 u := by
  cases h with
  | nil => exact absurd rfl hne
  | cons he hes =>
    obtain ⟨u, us, rfl, hu⟩ := he.starts
    cases hes with
    | nil => exact ⟨u, us, commaList_singleton _, hu⟩
    | cons _ _ => exact ⟨u, _, commaList_cons _ _ _, hu⟩

theorem before_list {ws : List (List Lexeme)} {es : List Expr} (h : ReadEach py select ws es)
    (hne : es ≠ []) {next stop : Lexeme → Prop} (hnext : ∀ u, Starts 0 u → next u) :
    Before next (commaList ws) stop := by
  obtain ⟨u, us, heq, hu⟩ := starts_list h hne
  rw [heq]
  exact hnext u hu

theorem before_list_append {ws : List (List Lexeme)} {es : List Expr}
    (h : ReadEach py select ws es) (hne : es ≠ []) {next stop : Lexeme → Prop}
    (hnext : ∀ u, Starts 0 u → next u) (v : List Lexeme) :
    Before next (commaList ws ++ v) stop := by
  obtain ⟨u, us, heq, hu⟩ := starts_list h hne
  rw [heq]
  exact hnext u hu

/-! ## Primary expressions -/

theorem readsAt_primary (hl : startLevel l.type = some 7)
    (h : Reads Parser.tape .atTop (parseAt py select 7) (l :: w) e (Stops 7)) :
    ReadsAt py select 7 (l :: w) e :=
  ⟨⟨l, w, rfl, 7, hl, le_rfl⟩, h⟩

theorem readsAt_literal (sp : Spelling py) {value : Value} (hv : Printable py (.literal value)) :
    ReadsAt py select 7 [literalLexeme sp value] (.literal value) := by
  have hread : ∀ (l : Lexeme) (q : ParserM Expr), q = pure (.literal value) →
      Reads Parser.tape .atTop (fun _ : ℕ => advance >>= fun _ => q) [l] (.literal value)
        (Stops 7) := by
    rintro l q rfl
    exact reads_advance Reads.pure
  cases value with
  | null =>
    apply readsAt_primary rfl
    exact reads_current (hread _ _ rfl) (by rintro ⟨_, _, _⟩ rfl; rfl)
  | bool b =>
    apply readsAt_primary rfl
    refine reads_current (hread _ _ rfl) ?_
    rintro ⟨_, _, _⟩ rfl
    cases b <;> rfl
  | int n =>
    obtain ⟨text, htext⟩ := hv
    have hn := sp.integer_spec text n htext
    apply readsAt_primary rfl
    refine reads_current (hread _ (literal (some (.int n))) rfl) ?_
    rintro ⟨_, _, _⟩ rfl
    funext m
    show (advance >>= fun _ => literal ((py.parseInt (.str (sp.integer n))).map .int)) = _
    rw [hn, Option.map_some]
  | float x =>
    obtain ⟨text, htext⟩ := hv
    have hx := sp.float_spec text x htext
    apply readsAt_primary rfl
    refine reads_current (hread _ (literal (some (.float x))) rfl) ?_
    rintro ⟨_, _, _⟩ rfl
    funext m
    show (advance >>= fun _ => literal ((py.parseFloat (.str (sp.float x))).map .float)) = _
    rw [hx, Option.map_some]
  | str s =>
    apply readsAt_primary rfl
    exact reads_current (hread _ _ rfl) (by rintro ⟨_, _, _⟩ rfl; rfl)
  | bytes b => exact hv.elim

theorem readsAt_star : ReadsAt py select 7 [⟨.star, "*"⟩] (.starExpr none) := by
  apply readsAt_primary rfl
  have hread : Reads Parser.tape .atTop (fun _ : ℕ => advance >>= fun _ =>
      (pure (.starExpr none) : ParserM Expr)) [⟨.star, "*"⟩] (.starExpr none) (Stops 7) :=
    reads_advance Reads.pure
  exact reads_current hread (by rintro ⟨_, _, _⟩ rfl; rfl)

/-- A name goes to `parseIdentifier`. -/
theorem readsAt_name {s : String} (hl : l = ⟨.identifier, s⟩ ∨ l = ⟨.quotedIdentifier, s⟩)
    (h : Reads Parser.tape .atTop (fun n => parseIdentifier py (parseExpression py select n) n)
      (l :: w) e (Stops 7)) : ReadsAt py select 7 (l :: w) e := by
  rcases hl with rfl | rfl
  · exact readsAt_primary rfl (reads_current h (by rintro ⟨_, _, _⟩ rfl; rfl))
  · exact readsAt_primary rfl (reads_current h (by rintro ⟨_, _, _⟩ rfl; rfl))

theorem Spelling.value_name (sp : Spelling py) (s : String) : (sp.name s).value = s := by
  rcases sp.name_spec s with h | h <;> rw [h]

theorem readsAt_column (sp : Spelling py) (column : String) :
    ReadsAt py select 7 [sp.name column] (.columnRef none column) := by
  apply readsAt_name (sp.name_spec column)
  apply reads_value
  rw [sp.value_name]
  apply reads_ifNoMatch _ (.nil fun t (ht : Stops 7 t) => ht.not_mem (by decide))
  exact reads_ifNoMatch Reads.pure (.nil fun t (ht : Stops 7 t) => ht.not_mem (by decide))

theorem readsAt_qualified (sp : Spelling py) (table column : String) :
    ReadsAt py select 7 [sp.name table, ⟨.dot, "."⟩, sp.name column]
      (.columnRef (some table) column) := by
  apply readsAt_name (sp.name_spec table)
  apply reads_value
  rw [sp.value_name]
  apply reads_ifNoMatch _ (.cons (by decide))
  apply reads_ifMatch (List.mem_singleton_self _)
  apply reads_value
  rw [sp.value_name]
  exact Reads.pure

/-! ## Function calls -/

def distinctLexemes (distinct : Bool) : List Lexeme :=
  if distinct then [⟨.kwDistinct, "DISTINCT"⟩] else []

section Calls

variable {ws : List (List Lexeme)} {args : List Expr} {distinct : Bool}

/-- The arguments end at the closing parenthesis. -/
def EndsArgs (l : Lexeme) : Prop := l.type = .rparen

theorem EndsArgs.endsList (h : EndsArgs l) : EndsList l :=
  ⟨stops_of_none (by rw [h]; rfl) 0, by rw [h]; decide⟩

theorem readsArgs_list (h : ReadEach py select ws args) (hne : args ≠ []) :
    Reads Parser.tape .atTop (fun n => parseExpressionList (parseExpression py select n) n >>=
      fun args => pure (args, distinct)) (commaList ws) (args, distinct) EndsArgs :=
  Reads.map ((readsList h hne).weaken fun _ ht => ht.endsList) fun args => (args, distinct)

theorem reads_callArgs (h : ReadEach py select ws args) (hdistinct : distinct = true → args ≠ []) :
    Reads Parser.tape .atTop (fun n => parseCallArgs (parseExpression py select n) n)
      (distinctLexemes distinct ++ commaList ws) (args, distinct) EndsArgs := by
  cases distinct with
  | true =>
    apply reads_ifNoCheck _ (.cons (by decide))
    exact reads_match (List.mem_singleton_self _) (readsArgs_list h (hdistinct rfl))
  | false =>
    by_cases hne : args = []
    · subst hne
      cases h
      exact reads_ifCheck Reads.pure (.nil fun t (ht : EndsArgs t) => List.mem_singleton.mpr ht)
    · apply reads_ifNoCheck _ (before_list h hne fun u hu => hu.not_mem (by decide))
      exact reads_matchNot (readsArgs_list h hne)
        (before_list h hne fun u hu => hu.not_mem (by decide))

/-- The first token of the arguments is no star. -/
def StarFree (w : List Lexeme) : Prop := w.head?.map Lexeme.type ≠ some .star

theorem StarFree.before (h : StarFree w) : Before (fun u => u.type ∉ [TokenType.star]) w EndsArgs := by
  cases w with
  | nil => exact .nil fun t (ht : EndsArgs t) => by rw [ht]; decide
  | cons u us => exact .cons (by simpa [StarFree] using h)

theorem reads_aggregateArgs (h : ReadEach py select ws args)
    (hstar : distinct = true ∨ StarFree (commaList ws)) :
    Reads Parser.tape .atTop (fun n => parseAggregateArgs (parseExpression py select n) n)
      (distinctLexemes distinct ++ commaList ws) (args, distinct) EndsArgs := by
  have hrest : Reads Parser.tape .atTop (fun n => check [.rparen] >>= fun found =>
      if found then pure ([], distinct)
      else parseExpressionList (parseExpression py select n) n >>= fun args =>
        pure (args, distinct)) (commaList ws) (args, distinct) EndsArgs := by
    by_cases hne : args = []
    · subst hne
      cases h
      exact reads_ifCheck Reads.pure (.nil fun t (ht : EndsArgs t) => List.mem_singleton.mpr ht)
    · exact reads_ifNoCheck (readsArgs_list h hne)
        (before_list h hne fun u hu => hu.not_mem (by decide))
  cases distinct with
  | true =>
    apply reads_ifNoCheck _ (.cons (by decide))
    exact reads_match (List.mem_singleton_self _) hrest
  | false =>
    have hfree : StarFree (commaList ws) := hstar.resolve_left Bool.false_ne_true
    apply reads_ifNoCheck _ hfree.before
    apply reads_matchNot hrest
    by_cases hne : args = []
    · subst hne
      cases h
      exact .nil fun t (ht : EndsArgs t) => by rw [ht]; decide
    · exact before_list h hne fun u hu => hu.not_mem (by decide)

theorem reads_aggregateStar :
    Reads Parser.tape .atTop (fun n => parseAggregateArgs (parseExpression py select n) n)
      [⟨.star, "*"⟩] ([.starExpr none], false) EndsArgs := by
  apply reads_ifCheck _ (.cons (by decide))
  exact reads_advance Reads.pure

/-- The flag that `FunctionCall.__post_init__` leaves. -/
theorem functionCall_eq (name : String) (isAggregate : Bool)
    (h : isAggregate = true → py.upper name ∈ aggregateNames) :
    functionCall py name args distinct isAggregate =
      .functionCall name args distinct (decide (py.upper name ∈ aggregateNames)) := by
  cases isAggregate with
  | false => rfl
  | true => simp [functionCall, h rfl]

theorem readsAt_call {s : String} (hl : l = ⟨.identifier, s⟩ ∨ l = ⟨.quotedIdentifier, s⟩)
    (h : ReadEach py select ws args) (hdistinct : distinct = true → args ≠ []) :
    ReadsAt py select 7 (l :: lparen :: (distinctLexemes distinct ++ commaList ws ++ [rparen]))
      (.functionCall s args distinct (decide (py.upper s ∈ aggregateNames))) := by
  apply readsAt_name hl
  apply reads_value
  have hvalue : l.value = s := by rcases hl with rfl | rfl <;> rfl
  rw [hvalue]
  apply reads_ifMatch (List.mem_singleton_self _)
  refine Reads.bind (reads_callArgs h hdistinct) ?_ (.cons rfl)
  apply reads_expect ""
  rw [← functionCall_eq s false (fun h => absurd h Bool.false_ne_true)]
  exact Reads.pure

theorem aggregateType_some {name : String} {type : TokenType} (h : aggregateType name = some type) :
    name ∈ aggregateNames ∧ type ∈ [.kwCount, .kwSum, .kwAvg, .kwMin, .kwMax] := by
  unfold aggregateType at h
  split at h <;> cases h <;> exact ⟨by decide, by decide⟩

theorem readsAt_aggregate {name : String} {type : TokenType} (htype : aggregateType name = some type)
    (hupper : ∀ s ∈ aggregateNames, py.upper s = s)
    (h : Reads Parser.tape .atTop (fun n => parseAggregateArgs (parseExpression py select n) n) w
      (args, distinct) EndsArgs) :
    ReadsAt py select 7 (⟨type, name⟩ :: lparen :: (w ++ [rparen]))
      (.functionCall name args distinct (decide (py.upper name ∈ aggregateNames))) := by
  obtain ⟨hname, hmem⟩ := aggregateType_some htype
  have hread : Reads Parser.tape .atTop
      (fun n => parseAggregateFunction py (parseExpression py select n) n)
      (⟨type, name⟩ :: lparen :: (w ++ [rparen]))
      (.functionCall name args distinct (decide (py.upper name ∈ aggregateNames))) (Stops 7) := by
    apply reads_value
    apply reads_expect ""
    refine Reads.bind h ?_ (.cons rfl)
    apply reads_expect ""
    rw [← functionCall_eq name true fun _ => by rw [hupper name hname]; exact hname]
    exact Reads.pure
  simp only [List.mem_cons, List.not_mem_nil, or_false] at hmem
  rcases hmem with rfl | rfl | rfl | rfl | rfl
  all_goals exact readsAt_primary rfl (reads_current hread (by rintro ⟨_, _, _⟩ rfl; rfl))

end Calls

/-! ## CASE and CAST -/

/-- What follows the WHEN clauses. -/
def EndsWhen (l : Lexeme) : Prop := l.type = .kwElse ∨ l.type = .kwEnd

theorem EndsWhen.stops (h : EndsWhen l) : Stops 0 l := by
  rcases h with h | h <;> exact stops_of_none (by rw [h]; rfl) 0

theorem EndsWhen.ne_when (h : EndsWhen l) : l.type ∉ [TokenType.kwWhen] := by
  rcases h with h | h <;> rw [h] <;> decide

/-- Each clause: the words of its condition and its result. -/
def whenLexemes : List (List Lexeme × List Lexeme) → List Lexeme
  | [] => []
  | (w, v) :: rest =>
    ⟨.kwWhen, "WHEN"⟩ :: (w ++ ⟨.kwThen, "THEN"⟩ :: (v ++ whenLexemes rest))

def ReadWhen (py : Py) (select : ParserM Unit) :
    List (List Lexeme × List Lexeme) → List (Expr × Expr) → Prop :=
  List.Forall₂ fun w e => ReadsAt py select 0 w.1 e.1 ∧ ReadsAt py select 0 w.2 e.2

theorem before_when {clauses : List (List Lexeme × List Lexeme)} :
    Before (Stops 0) (whenLexemes clauses) EndsWhen := by
  cases clauses with
  | nil => exact .nil fun t ht => ht.stops
  | cons clause rest => exact .cons (stops_of_none rfl 0)

theorem reads_whenClauses {words : List (List Lexeme × List Lexeme)} {clauses : List (Expr × Expr)}
    (h : ReadWhen py select words clauses) :
    LoopReads Parser.tape (fun n m => parseWhenClauses (parseExpression py select n) m)
      (whenLexemes words) clauses EndsWhen := by
  induction h with
  | nil =>
    apply LoopReads.of_turn
    exact reads_ifNoMatch Reads.pure (.nil fun t ht => ht.ne_when)
  | @cons word clause words clauses hclause _ ih =>
    apply LoopReads.of_turn
    apply reads_ifMatch (List.mem_singleton_self _)
    refine Reads.bind hclause.1.expression.inLoop ?_ (.cons (stops_of_none rfl 0))
    apply reads_expect ""
    refine Reads.bind hclause.2.expression.inLoop ?_ before_when
    exact Reads.map ih _

/-- The words of an optional expression. -/
def ReadOption (py : Py) (select : ParserM Unit) (w : List Lexeme) : Option Expr → Prop
  | none => w = []
  | some e => ReadsAt py select 0 w e

def elseLexemes (elseClause : Option Expr) (w : List Lexeme) : List Lexeme :=
  if elseClause.isSome then ⟨.kwElse, "ELSE"⟩ :: w else []

def EndsCase (l : Lexeme) : Prop := l.type = .kwEnd

theorem EndsCase.endsWhen (h : EndsCase l) : EndsWhen l := .inr h

theorem reads_caseOperand {operand : Option Expr} (h : ReadOption py select w operand) :
    Reads Parser.tape .atTop (fun n => parseCaseOperand (parseExpression py select n)) w operand
      (fun l => l.type = .kwWhen) := by
  cases operand with
  | none =>
    obtain rfl : w = [] := h
    exact reads_ifCheck Reads.pure (.nil fun t ht => List.mem_singleton.mpr ht)
  | some e =>
    have he : ReadsAt py select 0 w e := h
    apply reads_ifNoCheck _ (he.before fun u hu => hu.not_mem (by decide))
    refine Reads.map (he.expression.weaken fun t ht => ?_) _
    exact stops_of_none (by rw [ht]; rfl) 0

theorem reads_else {elseClause : Option Expr} (h : ReadOption py select w elseClause) :
    Reads Parser.tape .atTop (fun n => parseElse (parseExpression py select n))
      (elseLexemes elseClause w) elseClause EndsCase := by
  cases elseClause with
  | none =>
    refine reads_ifNoMatch Reads.pure (.nil fun t (ht : EndsCase t) => ?_)
    rw [ht]
    decide
  | some e =>
    have he : ReadsAt py select 0 w e := h
    apply reads_ifMatch (List.mem_singleton_self _)
    exact Reads.map (he.expression.weaken fun t ht => (EndsCase.endsWhen ht).stops) _

theorem readsAt_case {operand elseClause : Option Expr} {clauses : List (Expr × Expr)}
    {words : List (List Lexeme × List Lexeme)} (hoperand : ReadOption py select w operand)
    (hclauses : ReadWhen py select words clauses) (hne : clauses ≠ [])
    (helse : ReadOption py select v elseClause) :
    ReadsAt py select 7 (⟨.kwCase, "CASE"⟩ :: (w ++ (whenLexemes words ++
      (elseLexemes elseClause v ++ [⟨.kwEnd, "END"⟩])))) (.caseExpr operand clauses elseClause) := by
  have hread : Reads Parser.tape .atTop (fun n => advance >>= fun _ =>
      parseCaseExpr (parseExpression py select n) n) (⟨.kwCase, "CASE"⟩ :: (w ++ (whenLexemes words ++
      (elseLexemes elseClause v ++ [⟨.kwEnd, "END"⟩])))) (.caseExpr operand clauses elseClause)
      (Stops 7) := by
    apply reads_advance
    refine Reads.bind (reads_caseOperand hoperand) ?_ ?_
    · refine Reads.bind (LoopReads.reads (reads_whenClauses hclauses)) ?_ ?_
      · refine Reads.bind (reads_else helse) ?_ (.cons rfl)
        exact reads_expect "" Reads.pure
      · cases elseClause with
        | none => exact .cons (.inr rfl)
        | some e => exact .cons (.inl rfl)
    · cases hclauses with
      | nil => exact absurd rfl hne
      | cons _ _ => exact .cons rfl
  exact readsAt_primary rfl (reads_current hread (by rintro ⟨_, _, _⟩ rfl; rfl))

theorem reads_targetType {s : String} (h : SpellsType s w) :
    Reads Parser.tape .atTop (fun _ : ℕ => parseTargetType) w s (fun l => l = rparen) := by
  cases h with
  | name type s =>
    apply reads_value
    refine reads_ifNoMatch Reads.pure (.nil fun t ht => ?_)
    rw [ht]
    decide
  | param type s n =>
    apply reads_value
    apply reads_ifMatch (List.mem_singleton_self _)
    refine reads_cons (fun p ls hp => ⟨_, expect_ok hp "", ?_⟩) (reads_expect "" Reads.pure)
    rw [show p.current.value = n from congrArg Lexeme.value (Parser.current_eq hp)]

theorem readsAt_cast {s : String} (he : ReadsAt py select 0 w e) (hs : SpellsType s v) :
    ReadsAt py select 7 (⟨.kwCast, "CAST"⟩ :: lparen :: (w ++ ⟨.kwAs, "AS"⟩ :: (v ++ [rparen])))
      (.castExpr e s) := by
  have hread : Reads Parser.tape .atTop (fun n => advance >>= fun _ =>
      parseCastExpr (parseExpression py select n))
      (⟨.kwCast, "CAST"⟩ :: lparen :: (w ++ ⟨.kwAs, "AS"⟩ :: (v ++ [rparen]))) (.castExpr e s)
      (Stops 7) := by
    apply reads_advance
    apply reads_expect ""
    refine Reads.bind he.expression ?_ (.cons (stops_of_none rfl 0))
    apply reads_expect ""
    refine Reads.bind (reads_targetType hs) ?_ (.cons rfl)
    exact reads_expect "" Reads.pure
  exact readsAt_primary rfl (reads_current hread (by rintro ⟨_, _, _⟩ rfl; rfl))

/-! ## What follows the left side of a comparison -/

section Tails

variable {left right : Expr} {negated : Bool} {v' : List Lexeme}

theorem matchNegation_true {p : Parser} {l' : Lexeme} {ls : List Lexeme}
    (hp : p.lexemes = l :: l' :: ls) (hl : l.type = .kwNot)
    (hl' : l'.type ∈ [TokenType.kwBetween, .kwIn, .kwLike]) :
    matchNegation p = .ok (true, p.skip 1) := by
  have hpeek : (p.peek 1).toLexeme = l' := Parser.peek_eq (by rw [hp]; rfl)
  unfold matchNegation
  rw [Reader.bind_ok (check_eq hp)]
  simp only [List.mem_singleton, hl, decide_true, ↓reduceIte]
  show (if (p.peek 1).type ∈ _ then _ else _ : ParserM Bool) p = _
  rw [if_pos (by rw [hpeek]; exact hl')]
  rfl

/-- NOT, or nothing, in front of BETWEEN, IN or LIKE. -/
theorem reads_negation {ι β : Type} {F : Filter ι} {f : Bool → ι → ParserM β} {b : β}
    {stop : Lexeme → Prop} (hl : l.type ∈ [TokenType.kwBetween, .kwIn, .kwLike])
    (hq : Reads Parser.tape F (f negated) (l :: v) b stop) :
    Reads Parser.tape F (fun n => matchNegation >>= fun found => f found n)
      (notLexemes negated ++ l :: v) b stop := by
  cases negated with
  | false =>
    refine reads_look (fun s u us hs (hu : u = l) => ⟨false, ?_, rfl⟩) hq (.cons rfl)
    apply matchNegation_false hs
    rw [hu]
    intro hnot
    rw [hnot] at hl
    exact absurd hl (by decide)
  | true =>
    filter_upwards [hq] with n hn s t rest hs ht
    have hlexemes : s.lexemes = ⟨.kwNot, "NOT"⟩ :: l :: (v ++ t :: rest) := hs
    rw [Reader.bind_ok (matchNegation_true hlexemes rfl hl)]
    have hrest : (s.skip 1).lexemes = (l :: v) ++ t :: rest := by
      rw [Parser.lexemes_skip, hlexemes]
      rfl
    rw [hn _ t rest hrest ht, Parser.tape_skip, Parser.tape_skip, Parser.skip_skip, Nat.add_comm]
    rfl

theorem notLexemes_before {next stop : Lexeme → Prop} (hnot : next ⟨.kwNot, "NOT"⟩) (hl : next l) :
    Before next (notLexemes negated ++ l :: v) stop := by
  cases negated with
  | false => exact hl
  | true => exact hnot

/-- The left side and then the tail. -/
theorem readsAt_comparison (hleft : ReadsAt py select 4 w left)
    (htail : Reads Parser.tape .atTop
      (fun n => parseComparisonTail py select (parseExpression py select n) n left) v e (Stops 3))
    (hnext : Before (Stops 4) v (Stops 3)) : ReadsAt py select 3 (w ++ v) e := by
  obtain ⟨u, us, hw, hu⟩ := hleft.starts
  refine ⟨⟨u, us ++ v, by rw [hw]; rfl, hu.mono (Nat.le_succ 3)⟩, ?_⟩
  exact Reads.bind hleft.reads htail hnext

theorem readsAt_isNull (hleft : ReadsAt py select 4 w left) :
    ReadsAt py select 3 (w ++ ⟨.kwIs, "IS"⟩ :: (notLexemes negated ++ [⟨.nullLiteral, "NULL"⟩]))
      (.isNullExpr left negated) := by
  apply readsAt_comparison hleft _ (.cons fun m hm => by cases hm; decide)
  apply reads_ifMatch (List.mem_singleton_self _)
  show Reads Parser.tape .atTop (fun _ : ℕ => parseIs left)
      (notLexemes negated ++ [⟨.nullLiteral, "NULL"⟩]) (.isNullExpr left negated) (Stops 3)
  cases negated with
  | false => exact reads_matchNot (reads_expect _ Reads.pure) (.cons (by decide))
  | true => exact reads_match (List.mem_singleton_self _) (reads_expect _ Reads.pure)

theorem readsAt_between (hleft : ReadsAt py select 4 w left) {low high : Expr}
    (hlow : ReadsAt py select 4 v low) (hhigh : ReadsAt py select 4 v' high) :
    ReadsAt py select 3 (w ++ (notLexemes negated ++ ⟨.kwBetween, "BETWEEN"⟩ ::
      (v ++ ⟨.kwAnd, "AND"⟩ :: v'))) (.betweenExpr left low high negated) := by
  apply readsAt_comparison hleft _
    (notLexemes_before (fun m hm => by cases hm; decide) fun m hm => by cases hm; decide)
  apply reads_ifNoMatch _ (notLexemes_before (by decide) (by decide))
  apply reads_negation (by decide)
  apply reads_ifMatch (List.mem_singleton_self _)
  show Reads Parser.tape .atTop (fun n =>
      parseBetween py select (parseExpression py select n) n left negated)
      (v ++ ⟨.kwAnd, "AND"⟩ :: v') (.betweenExpr left low high negated) (Stops 3)
  refine Reads.bind hlow.reads ?_ (.cons fun m hm => by cases hm; decide)
  apply reads_expect ""
  exact Reads.map (hhigh.reads.weaken fun t ht => ht.mono (Nat.le_succ 3)) _

theorem readsAt_in (hleft : ReadsAt py select 4 w left) {ws : List (List Lexeme)}
    {values : List Expr} (hvalues : ReadEach py select ws values) (hne : values ≠ []) :
    ReadsAt py select 3 (w ++ (notLexemes negated ++ ⟨.kwIn, "IN"⟩ :: lparen ::
      (commaList ws ++ [rparen]))) (.inExpr left values negated) := by
  apply readsAt_comparison hleft _
    (notLexemes_before (fun m hm => by cases hm; decide) fun m hm => by cases hm; decide)
  apply reads_ifNoMatch _ (notLexemes_before (by decide) (by decide))
  apply reads_negation (by decide)
  apply reads_ifNoMatch _ (.cons (by decide))
  apply reads_ifMatch (List.mem_singleton_self _)
  show Reads Parser.tape .atTop (fun n =>
      parseIn select (parseExpression py select n) n left negated)
      (lparen :: (commaList ws ++ [rparen])) (.inExpr left values negated) (Stops 3)
  apply reads_expect ""
  apply reads_ifNoCheck _ (before_list_append hvalues hne (fun u hu => hu.not_mem (by decide)) _)
  refine Reads.bind (readsList hvalues hne) ?_ (.cons endsList_rparen)
  exact reads_expect "" Reads.pure

theorem readsAt_like (hleft : ReadsAt py select 4 w left) {pattern : Expr}
    (hpattern : ReadsAt py select 4 v pattern) :
    ReadsAt py select 3 (w ++ (notLexemes negated ++ ⟨.kwLike, "LIKE"⟩ :: v))
      (.likeExpr left pattern negated) := by
  apply readsAt_comparison hleft _
    (notLexemes_before (fun m hm => by cases hm; decide) fun m hm => by cases hm; decide)
  apply reads_ifNoMatch _ (notLexemes_before (by decide) (by decide))
  apply reads_negation (by decide)
  apply reads_ifNoMatch _ (.cons (by decide))
  apply reads_ifNoMatch _ (.cons (by decide))
  apply reads_ifMatch (List.mem_singleton_self _)
  exact Reads.map (hpattern.reads.weaken fun t ht => ht.mono (Nat.le_succ 3)) _

theorem comparisonOp_opLexeme {op : BinaryOpType} (hop : opLevel op = 3) :
    comparisonOp (opLexeme op).type = some op := by
  cases op <;> first | rfl | cases hop

theorem readsAt_compare (hleft : ReadsAt py select 4 w left) (hright : ReadsAt py select 4 v right)
    {op : BinaryOpType} (hop : opLevel op = 3) :
    ReadsAt py select 3 (w ++ opLexeme op :: v) (.binaryOp op left right) := by
  have hlevel : infixLevel (opLexeme op).type = some 3 :=
    infixLevel_of_comparisonOp (comparisonOp_opLexeme hop)
  have hother : ∀ types : List TokenType, (∀ type ∈ types, comparisonOp type = none) →
      (opLexeme op).type ∉ types := by
    intro types htypes hmem
    have hnone := htypes _ hmem
    rw [comparisonOp_opLexeme hop] at hnone
    cases hnone
  apply readsAt_comparison hleft _ (.cons fun m hm => by rw [hlevel] at hm; cases hm; decide)
  apply reads_ifNoMatch _ (.cons (hother _ (by decide)))
  refine reads_look (fun s u us hs (hu : u = opLexeme op) => ⟨false, ?_, rfl⟩) ?_
    (.cons rfl)
  · apply matchNegation_false hs
    rw [hu]
    have hnot := hother [.kwNot] (by decide)
    simpa using hnot
  apply reads_ifNoMatch _ (.cons (hother _ (by decide)))
  apply reads_ifNoMatch _ (.cons (hother _ (by decide)))
  apply reads_ifNoMatch _ (.cons (hother _ (by decide)))
  have hread : Reads Parser.tape .atTop (fun n => advance >>= fun _ => parseAt py select 4 n >>=
      fun right => pure (Expr.binaryOp op left right)) (opLexeme op :: v)
      (.binaryOp op left right) (Stops 3) :=
    reads_advance (Reads.map (hright.reads.weaken fun t ht => ht.mono (Nat.le_succ 3)) _)
  refine reads_look (fun s u us hs (hu : u = opLexeme op) => ?_) hread (.cons rfl)
  refine ⟨_, currentType_eq hs, ?_⟩
  rw [hu, comparisonOp_opLexeme hop]
  rfl

end Tails

end PySQL.Parse
