import PySQL.Parse.FollowExpression

/-!
# Statements follow the grammar
-/

namespace PySQL.Parse

open Lib Query

/-! ## Table references -/

section Tables

open Phrase

variable {py : Py} {α : Type} {k fuel : ℕ} {attr : α → Bool}

theorem method_name {message : String} : Method py k 1 plain (parseName message) .name :=
  Tracks.method (fun _ => id) (tracks_tok (by decide) fun _ _ _ => tracks_pure rfl)

theorem method_parens {item : ParserM α} {q : Phrase} (hitem : Method py k 1 attr item q) :
    Method py k 1 plain (parenthesized item) (.parens q) := by
  apply Tracks.method (fun _ => id)
  refine tracks_tok (by decide) fun _ j hj => ?_
  refine (hitem.le (by omega)).seq fun a j hj => ?_
  exact tracks_tok (by decide) fun _ _ _ => tracks_pure rfl

theorem method_names {message : String} (hfuel : k < fuel) :
    Method py k 1 plain (parseNames fuel message) .names := by
  have hnames : Method py k 1 plain (parseNames fuel message) (.parens (.list .name)) :=
    method_parens (method_list method_name hfuel)
  exact Tracks.method (fun _ => id) (hnames.self (by omega))

theorem method_clause {item : ParserM α} {q : Phrase} {type : TokenType} (htype : type ≠ .eof)
    (hitem : Method py k 1 attr item q) :
    Method py k 0 plain (clause type item) (.clause type q) := by
  apply Tracks.method (fun _ => id)
  refine tracks_ifTok (by simpa [eq_comm] using htype) (fun j hj => ?_) (tracks_pure rfl)
  exact (hitem.le (by omega)).last (by omega) fun _ => rfl

theorem method_clauseBy {item : ParserM α} {q : Phrase} {type : TokenType} (htype : type ≠ .eof)
    (hitem : Method py k 1 attr item q) :
    Method py k 0 plain (clauseBy type item) (.clauseBy type q) := by
  apply Tracks.method (fun _ => id)
  refine tracks_ifAdvance (by simpa [eq_comm] using htype) (fun _ j hj => ?_) (tracks_pure rfl)
  refine tracks_tok (by decide) fun _ j hj => ?_
  exact (hitem.le (by omega)).last (by omega) fun _ => rfl

theorem method_alias {message : String} : Method py k 0 plain (parseAlias message) .aliasName := by
  apply Tracks.method (fun _ => id)
  refine tracks_ifTok (by decide) (fun j hj => method_name.last (by omega) fun _ => rfl) ?_
  have hvalue : (advanceValue >>= fun name => pure (some name) : ParserM (Option String)) =
      advance >>= fun token => pure (some token.value) := rfl
  rw [hvalue]
  exact tracks_ifAdvance (by decide) (fun _ j hj => tracks_pure rfl) (tracks_pure rfl)

variable {select : ParserM SelectStatement} {expression : ParserM Expr}
  (hselect : Method py k 1 plain select .select)
  (hexpression : ∀ c, Method py k 1 isColumn expression (.expression c)) (hfuel : k < fuel)

include hselect

theorem method_primaryTableRef :
    Method py k 1 plain (parsePrimaryTableRef select) .primaryTableRef := by
  apply Tracks.method (fun _ => id)
  refine tracks_ifTok (by decide) (fun j hj => ?_) ?_
  · refine tracks_ifAt ?_ ?_
    · refine (hselect.le (by omega)).seq fun subquery j hj => ?_
      refine tracks_tok (by decide) fun _ j hj => ?_
      exact method_alias.last (by omega) fun _ => rfl
    · exact tracks_look fun token p hp hleft _ => tracks_reject _ _ p hp hleft
  · refine method_name.seq fun name j hj => ?_
    exact method_alias.last (by omega) fun _ => rfl

omit hselect

theorem method_joinType : Method py k 1 plain parseJoinType .joinType := by
  have houter : ∀ {k} type, Tracks py k 0 plain (parseOuterJoin type)
      ((optional [.kwOuter]).seq <| tok .kwJoin) := by
    intro k type
    refine (method_optional (by decide)).seq fun _ j hj => ?_
    exact tracks_tok (by decide) fun _ _ _ => tracks_pure rfl
  have hjoin : ∀ {k} (type : JoinType), Tracks py k 0 plain
      (expect .kwJoin >>= fun _ => pure type) (tok .kwJoin) :=
    fun type => tracks_tok (by decide) fun _ _ _ => tracks_pure rfl
  apply Tracks.method (fun _ => id)
  refine tracks_ifTok (by decide) (fun j hj => ?_) ?_
  · exact (method_optional (by decide)).last (by omega) fun _ => rfl
  refine tracks_ifTok (by decide) (fun j hj => hjoin _) ?_
  refine tracks_ifTok (by decide) (fun j hj => hjoin _) ?_
  refine tracks_ifTok (by decide) (fun j hj => houter _) ?_
  refine tracks_ifTok (by decide) (fun j hj => houter _) ?_
  refine tracks_ifTok (by decide) (fun j hj => houter _) ?_
  refine tracks_ifTok (by decide) (fun j hj => tracks_pure rfl) ?_
  exact tracks_look fun token p hp hleft _ => tracks_reject _ _ p hp hleft

include hexpression hfuel

theorem method_joinCondition :
    Method py k 0 plain (parseJoinCondition expression fuel) .joinCondition := by
  apply Tracks.method (fun _ => id)
  refine tracks_ifTok (by decide) (fun j hj => ?_) ?_
  · exact ((hexpression false).le (by omega)).last (by omega) fun _ => rfl
  · refine tracks_ifTok (by decide) (fun j hj => ?_) (tracks_pure rfl)
    exact (method_names (by omega)).last (by omega) fun _ => rfl

include hselect

theorem method_joins {n : ℕ} (hn : k < n) (left : TableRef) :
    Method py k 0 plain (joinLoop select expression fuel n left) .joins := by
  induction n generalizing k left with
  | zero => omega
  | succ n ih =>
    have hnext : ∀ {j} left, j + 1 ≤ k →
        Method py j 0 plain (joinLoop select expression fuel n left) .joins := fun left hj =>
      ih (hselect.le (by omega)) (fun c => (hexpression c).le (by omega)) (by omega) (by omega) left
    apply Tracks.method (fun _ => id)
    refine tracks_ifAt ?_ (tracks_pure rfl)
    refine tracks_ifTok (by decide) (fun j hj => ?_) ?_
    · refine ((method_primaryTableRef hselect).le (by omega)).seq fun right j hj => ?_
      exact (hnext _ (by omega)).self (by omega)
    · refine method_joinType.seq fun joinType j hj => ?_
      refine ((method_primaryTableRef hselect).le (by omega)).seq fun right j hj => ?_
      refine ((method_joinCondition hexpression hfuel).le (by omega)).seq fun condition j hj => ?_
      exact (hnext _ (by omega)).self (by omega)

theorem method_tableRef :
    Method py k 1 plain (parseTableRef select expression fuel) .tableRef := by
  apply Tracks.method (fun _ => id)
  refine (method_primaryTableRef hselect).seq fun left j hj => ?_
  exact ((method_joins hselect hexpression hfuel hfuel left).le (by omega)).self (by omega)

end Tables

/-! ## SELECT -/

section Select

open Phrase

variable {py : Py} {α β : Type} {k d fuel : ℕ} {attr : α → Bool} {r : Production}

theorem Method.discard {m : ParserM α} {q : Phrase} (h : Method py k d plain m q) :
    Method py k d plain (discard m) q := by
  have hmap : Functor.discard m = m >>= fun _ => pure () := by
    rw [bind_pure_comp]
    rfl
  rw [hmap]
  exact h.map _

/-- A phrase that reads nothing. -/
theorem tracks_silent {m : ParserM α} {q : Phrase} (hq : ∀ w, ¬ Refused py q w)
    (hrule : rules q = nothing) (h : Tracks py k d attr m r) : Tracks py k d attr m (q.seq r) := by
  have hpure : Method py k 0 plain (pure () : ParserM Unit) q := by
    apply Tracks.method hq
    rw [hrule]
    exact tracks_pure rfl
  have hseq : Tracks py k d attr ((pure () : ParserM Unit) >>= fun _ => m) (q.seq r) :=
    hpure.seq fun _ j hj => h.le (by omega)
  rw [pure_bind] at hseq
  exact hseq

variable {select : ParserM SelectStatement} {expression : ParserM Expr}

theorem method_selectItem (hexpression : ∀ c, Method py k 1 isColumn expression (.expression c)) :
    Method py k 1 plain (parseSelectItem expression) .selectItem := by
  have htail : ∀ {j} expr, Method py j 0 plain (parseSelectItemTail expr)
      (.selectItemTail (isColumn expr)) := by
    intro j expr
    have hname : ∀ {j}, Tracks py j 0 plain
        (parseAlias "Expected alias name after AS" >>= fun alias? =>
          pure (expr, alias?.filter (· ≠ ""))) Phrase.aliasName.seq :=
      method_alias.last (by omega) fun _ => rfl
    apply Tracks.method (fun _ => id)
    unfold parseSelectItemTail
    cases hcolumn : columnOf expr with
    | none =>
      have hrule : rules (.selectItemTail (isColumn expr)) = Phrase.aliasName.seq := by
        rw [isColumn, hcolumn]
        rfl
      rw [hrule]
      exact hname
    | some column =>
      have hrule : rules (.selectItemTail (isColumn expr)) =
          ifTok [.dot] (ifTok [.star] nothing <| Phrase.danglingDot.seq Phrase.aliasName.seq)
            Phrase.aliasName.seq := by
        rw [isColumn, hcolumn]
        rfl
      rw [hrule]
      refine tracks_ifTok (by decide) (fun j hj => ?_) hname
      refine tracks_ifTok (by decide) (fun j hj => tracks_pure rfl) ?_
      exact tracks_silent (fun _ => id) rfl hname
  apply Tracks.method (fun _ => id)
  refine tracks_ifTok (by decide) (fun j hj => tracks_pure rfl) ?_
  refine (hexpression false).bind fun expr j hj => ?_
  exact (htail expr).self (by omega)

theorem method_orderByItem (hexpression : ∀ c, Method py k 1 isColumn expression (.expression c)) :
    Method py k 1 plain (parseOrderByItem expression) .orderByItem := by
  apply Tracks.method (fun _ => id)
  refine (hexpression false).seq fun expr j hj => ?_
  refine tracks_ifTok (by decide) (fun j hj => tracks_pure rfl) ?_
  exact (method_optional (by decide)).last (by omega) fun _ => rfl

theorem not_refused_integer {p : Parser} (h : p.current.type ≠ .integerLiteral) :
    ¬ Refused py .integer p.lexemes := by
  cases hl : p.lexemes with
  | nil => exact id
  | cons l ls =>
    rw [← Parser.current_eq hl]
    exact fun hr => h hr.1

theorem method_count (message : String) : Method py k 1 plain (parseCount py message) .integer := by
  intro p hp hleft
  by_cases h : p.current.type = .integerLiteral
  · have hnumber : Follows py p 1 plain (.call .integer .done)
        ((py.parseInt (.str p.current.value)).elim (.error .valueError) fun n => .ok (n, p.skip 1)) :=
      follows_number hp h (by decide) rfl (refused_integer hp h) fun _ _ => rfl
    unfold parseCount
    rw [Reader.bind_ok (expect_type h message), intValue]
    cases hn : py.parseInt (.str p.current.value) with
    | none =>
      rw [hn] at hnumber
      exact hnumber
    | some n =>
      rw [hn] at hnumber
      exact hnumber
  · refine Scheme.Follows.call (not_refused_integer h) ?_
    obtain ⟨msg, hexpect⟩ := expect_other h message
    unfold parseCount
    rw [Reader.bind_error hexpect]
    exact follows_rejectTok h hp msg

theorem method_limit : Method py k 0 plain (parseLimit py) .limit := by
  apply Tracks.method (fun _ => id)
  refine tracks_ifTok (by decide) (fun j hj => ?_) (tracks_pure rfl)
  refine (method_count _).seq fun limit j hj => ?_
  exact (method_clause (by decide) (method_count _)).last (by omega) fun _ => rfl

theorem method_selectBody (hselect : ∀ j < k, Method py j 1 plain select .select)
    (hexpression : ∀ j < k, ∀ c, Method py j 1 isColumn expression (.expression c))
    (hfuel : k < fuel) : Method py k 1 plain (selectBody py select expression fuel) .select := by
  apply Tracks.method (fun _ => id)
  refine tracks_tok (by decide) fun _ j hj => ?_
  have hselect := hselect j (by omega)
  have hexpression := hexpression j (by omega)
  refine (method_optional (by decide)).seq fun distinct i hi => ?_
  refine ((method_list (method_selectItem hexpression) (by omega)).le (by omega)).seq
    fun columns i hi => ?_
  refine ((method_clause (by decide) (method_tableRef hselect hexpression (by omega))).le
    (by omega)).seq fun fromClause i hi => ?_
  refine ((method_clause (by decide) (hexpression false)).le (by omega)).seq
    fun whereClause i hi => ?_
  refine ((method_clauseBy (by decide) (method_expressionList hexpression (by omega))).le
    (by omega)).seq fun groupBy i hi => ?_
  refine ((method_clause (by decide) (hexpression false)).le (by omega)).seq fun having i hi => ?_
  refine ((method_clauseBy (by decide)
    (method_list (method_orderByItem hexpression) (by omega))).le (by omega)).seq
    fun orderBy i hi => ?_
  exact method_limit.last (by omega) fun _ => rfl

theorem method_select {n : ℕ} (hn : k + 2 ≤ n) :
    Method py k 1 plain (parseSelect py n) .select := by
  induction n generalizing k with
  | zero => omega
  | succ n ih =>
    apply method_selectBody (fun j hj => ih (by omega)) _ (by omega)
    intro j hj
    exact method_expression (by omega) (ih (by omega)).discard

end Select

/-! ## The other statements -/

section Statements

open Phrase

variable {py : Py} {k fuel : ℕ} {expression : ParserM Expr}

section Rows

variable (hexpression : ∀ j < k, ∀ c, Method py j 1 isColumn expression (.expression c))
  (hfuel : k < fuel)

include hexpression hfuel

theorem method_insert : Method py k 1 plain (parseInsert expression fuel) .insert := by
  apply Tracks.method (fun _ => id)
  refine tracks_tok (by decide) fun _ j hj => ?_
  refine tracks_tok (by decide) fun _ j hj => ?_
  refine method_name.seq fun table j hj => ?_
  have hcolumns : Method py j 0 plain (parseColumnList fuel) .columnList := by
    apply Tracks.method (fun _ => id)
    refine tracks_ifAt ?_ (tracks_pure rfl)
    exact (method_names (by omega)).last (by omega) fun _ => rfl
  refine hcolumns.seq fun columns j hj => ?_
  refine tracks_tok (by decide) fun _ j hj => ?_
  have hrow : Method py j 1 plain (parenthesized (commaSeparated expression fuel))
      (.parens (.list (.expression false))) :=
    method_parens (method_list (hexpression j (by omega) false) (by omega))
  exact (method_list hrow (by omega)).last (by omega) fun _ => rfl

theorem method_update : Method py k 1 plain (parseUpdate expression fuel) .update := by
  apply Tracks.method (fun _ => id)
  refine tracks_tok (by decide) fun _ j hj => ?_
  refine method_name.seq fun table j hj => ?_
  refine tracks_tok (by decide) fun _ j hj => ?_
  have hassignment : Method py j 1 plain (parseAssignment expression) .assignment := by
    apply Tracks.method (fun _ => id)
    refine method_name.seq fun col i hi => ?_
    refine tracks_tok (by decide) fun _ i hi => ?_
    exact (hexpression i (by omega) false).last (by omega) fun _ => rfl
  refine (method_list hassignment (by omega)).seq fun assignments i hi => ?_
  exact (method_clause (by decide) (hexpression i (by omega) false)).last (by omega) fun _ => rfl

omit hfuel in
theorem method_delete : Method py k 1 plain (parseDelete expression) .delete := by
  apply Tracks.method (fun _ => id)
  refine tracks_tok (by decide) fun _ j hj => ?_
  refine tracks_tok (by decide) fun _ j hj => ?_
  refine method_name.seq fun table j hj => ?_
  exact (method_clause (by decide) (hexpression j (by omega) false)).last (by omega) fun _ => rfl

end Rows

section Create

theorem method_ifNotExists : Method py k 0 plain parseIfNotExists .ifNotExists := by
  apply Tracks.method (fun _ => id)
  refine tracks_ifAdvance (by decide) (fun _ j hj => ?_) (tracks_pure rfl)
  refine tracks_tok (by decide) fun _ j hj => ?_
  exact tracks_tok (by decide) fun _ _ _ => tracks_pure rfl

theorem method_references : Method py k 1 plain parseReferences .references := by
  apply Tracks.method (fun _ => id)
  refine method_name.seq fun table j hj => ?_
  refine tracks_tok (by decide) fun _ j hj => ?_
  refine method_name.seq fun column j hj => ?_
  exact tracks_tok (by decide) fun _ _ _ => tracks_pure rfl

theorem method_primaryKey : Method py k 1 plain parsePrimaryKey .primaryKey := by
  apply Tracks.method (fun _ => id)
  refine tracks_tok (by decide) fun _ j hj => ?_
  exact tracks_ifTok (by decide) (fun _ _ => tracks_pure rfl) (tracks_pure rfl)

theorem method_notNull : Method py k 1 plain parseNotNull .notNull := by
  apply Tracks.method (fun _ => id)
  refine tracks_ifAdvance (by decide) (fun _ j hj => tracks_pure rfl) ?_
  exact tracks_look fun token p hp hleft _ => tracks_reject _ _ p hp hleft

theorem method_foreignKey : Method py k 1 plain parseForeignKey .foreignKey := by
  apply Tracks.method (fun _ => id)
  refine tracks_tok (by decide) fun _ j hj => ?_
  refine tracks_tok (by decide) fun _ j hj => ?_
  refine method_name.seq fun column j hj => ?_
  refine tracks_tok (by decide) fun _ j hj => ?_
  refine tracks_tok (by decide) fun _ j hj => ?_
  exact method_references.self (by omega)

theorem method_constraintName : Method py k 0 plain parseConstraintName .constraintName := by
  apply Tracks.method (fun _ => id)
  refine tracks_ifTok (by decide) (fun j hj => ?_) (tracks_pure rfl)
  exact method_typeName.last (by omega) fun _ => rfl

variable (hexpression : ∀ j < k, ∀ c, Method py j 1 isColumn expression (.expression c))
  (hfuel : k < fuel)

include hexpression

/-- The tokens at which a constraint of a column begins. -/
def constraintStart : List TokenType :=
  [.kwPrimary, .kwNot, .kwUnique, .kwDefault, .kwCheck, .kwAutoincrement, .kwReferences]

/-- A constraint takes a token, and where none begins nothing is taken. -/
theorem follows_columnConstraint {p : Parser} (hp : p.Ended) (hleft : (scheme py).left p ≤ k)
    {d : ℕ} (hd : p.current.type ∉ constraintStart → d = 0) (hd1 : d ≤ 1) :
    Follows py p d Option.isSome (.call .columnConstraint .done)
      (parseColumnConstraint expression p) := by
  apply follows_call (fun _ => id)
  refine follows_ifTok hp hleft (by decide) (fun j hj => ?_) fun h₁ => ?_
  · exact method_primaryKey.seq fun _ _ _ => (Scheme.Tracks.pure _ rfl).weaken (by omega)
  refine follows_ifTok hp hleft (by decide) (fun j hj => ?_) fun h₂ => ?_
  · exact method_notNull.seq fun _ _ _ => (Scheme.Tracks.pure _ rfl).weaken (by omega)
  refine follows_ifTok hp hleft (by decide) (fun j hj => ?_) fun h₃ => ?_
  · exact (Scheme.Tracks.pure _ rfl).weaken (by omega)
  refine follows_ifTok hp hleft (by decide) (fun j hj => ?_) fun h₄ => ?_
  · exact (hexpression j (by omega) false).seq fun _ _ _ =>
      (Scheme.Tracks.pure _ rfl).weaken (by omega)
  refine follows_ifTok hp hleft (by decide) (fun j hj => ?_) fun h₅ => ?_
  · exact (method_parens (hexpression j (by omega) false)).seq fun _ _ _ =>
      (Scheme.Tracks.pure _ rfl).weaken (by omega)
  refine follows_ifTok hp hleft (by decide) (fun j hj => ?_) fun h₆ => ?_
  · exact (Scheme.Tracks.pure _ rfl).weaken (by omega)
  refine follows_ifTok hp hleft (by decide) (fun j hj => ?_) fun h₇ => ?_
  · exact method_references.seq fun _ _ _ => (Scheme.Tracks.pure _ rfl).weaken (by omega)
  obtain rfl : d = 0 := hd (by simp_all [constraintStart])
  exact tracks_pure rfl p hp hleft

omit hexpression in
theorem parseColumnConstraint_none {p : Parser} (h : p.current.type ∉ constraintStart) :
    parseColumnConstraint expression p = .ok (none, p) := by
  have hout : ∀ type ∈ constraintStart, p.current.type ∉ [type] :=
    fun type htype hin => h (List.mem_singleton.mp hin ▸ htype)
  have hskip : ∀ type ∈ constraintStart, ∀ A B : ParserM (Option (List ConstraintType)),
      (matchToken [type] >>= fun found => if found = true then A else B) p = B p := by
    intro type htype A B
    rw [Reader.bind_ok (matchToken_false (hout type htype)), if_neg Bool.false_ne_true]
  unfold parseColumnConstraint
  iterate 7 rw [hskip _ (by decide)]
  rfl

theorem method_columnConstraints {n : ℕ} (hn : k < n) :
    Method py k 0 plain (parseColumnConstraints expression n) .columnConstraints := by
  induction n generalizing k with
  | zero => omega
  | succ n ih =>
    apply Tracks.method (fun _ => id)
    intro p hp hleft
    have hfirst := follows_columnConstraint hexpression (d := 0) hp hleft (fun _ => rfl)
      (Nat.zero_le 1)
    have htakes : ∀ constraints p', parseColumnConstraint expression p = .ok (some constraints, p') →
        (scheme py).left p' + 1 ≤ (scheme py).left p := by
      intro constraints p' hrun
      by_cases hin : p.current.type ∈ constraintStart
      · have hone := follows_columnConstraint hexpression (d := 1) hp hleft (fun h => absurd hin h)
          (Nat.le_refl 1)
        rw [hrun] at hone
        exact hone.left_le
      · rw [parseColumnConstraint_none hin] at hrun
        cases hrun
    refine Scheme.Follows.bind hfirst fun constraints p' hrun hp' hle => ?_
    cases constraints with
    | none => exact tracks_pure rfl p' hp' (Nat.le_refl _)
    | some constraints =>
      have hlt := htakes constraints p' hrun
      have hrest : Method py ((scheme py).left p') 0 plain (parseColumnConstraints expression n)
          .columnConstraints :=
        ih (fun j hj => hexpression j (by omega)) (by omega)
      exact hrest.last (Nat.zero_le 0) (fun _ => rfl) p' hp' (Nat.le_refl _)

theorem method_columnDef (hfuel : k < fuel) :
    Method py k 1 plain (parseColumnDef expression fuel) .columnDef := by
  apply Tracks.method (fun _ => id)
  refine method_name.seq fun name j hj => ?_
  refine method_targetType.seq fun dataType j hj => ?_
  have hexpression : ∀ i < j, ∀ c, Method py i 1 isColumn expression (.expression c) :=
    fun i hi => hexpression i (by omega)
  exact (method_columnConstraints hexpression (by omega)).last (by omega) fun _ => rfl

theorem method_tableConstraint (hfuel : k < fuel) :
    Method py k 1 plain (parseTableConstraint expression fuel) .tableConstraint := by
  apply Tracks.method (fun _ => id)
  refine method_constraintName.seq fun _ j hj => ?_
  refine tracks_ifTok (by decide) (fun j hj => ?_) ?_
  · refine tracks_tok (by decide) fun _ j hj => ?_
    exact (method_names (by omega)).last (by omega) fun _ => rfl
  refine tracks_ifTok (by decide) (fun j hj => ?_) ?_
  · exact (method_names (by omega)).last (by omega) fun _ => rfl
  refine tracks_ifTok (by decide) (fun j hj => method_foreignKey.self (by omega)) ?_
  refine tracks_ifTok (by decide) (fun j hj => ?_) ?_
  · exact (method_parens (hexpression j (by omega) false)).last (by omega) fun _ => rfl
  exact tracks_look fun token p hp hleft _ => tracks_reject _ _ p hp hleft

theorem method_tableElement (hfuel : k < fuel) :
    Method py k 1 plain (parseTableElement expression fuel) .tableElement := by
  apply Tracks.method (fun _ => id)
  refine tracks_ifAt ?_ ?_
  · exact (method_tableConstraint hexpression hfuel).last (by omega) fun _ => rfl
  · exact (method_columnDef hexpression hfuel).last (by omega) fun _ => rfl

theorem method_tableElements (hfuel : k < fuel) {n : ℕ} (hn : k < n) :
    Method py k 0 plain (parseTableElements expression fuel n) .tableElements := by
  induction n generalizing k with
  | zero => omega
  | succ n ih =>
    apply Tracks.method (fun _ => id)
    refine tracks_ifAt (tracks_pure rfl) ?_
    refine (method_tableElement hexpression hfuel).seq fun first j hj => ?_
    refine tracks_ifTok (by decide) (fun j hj => ?_) (tracks_pure rfl)
    exact (ih (fun i hi => hexpression i (by omega)) (by omega) (by omega)).last (by omega) fun _ => rfl

omit hexpression in
theorem method_createIndex (hfuel : k < fuel) (unique : Bool) :
    Method py k 1 plain (parseCreateIndex fuel unique) .createIndex := by
  apply Tracks.method (fun _ => id)
  refine tracks_tok (by decide) fun _ j hj => ?_
  refine method_ifNotExists.seq fun _ j hj => ?_
  refine method_name.seq fun name j hj => ?_
  refine tracks_tok (by decide) fun _ j hj => ?_
  refine method_name.seq fun table j hj => ?_
  exact (method_names (by omega)).last (by omega) fun _ => rfl

theorem method_create (hfuel : k < fuel) :
    Method py k 1 plain (parseCreate expression fuel) .create := by
  have htable : ∀ {j}, j < k →
      Method py j 1 plain (parseCreateTable expression fuel) .createTable := by
    intro j hj
    apply Tracks.method (fun _ => id)
    refine tracks_tok (by decide) fun _ j hj => ?_
    refine method_ifNotExists.seq fun ifNotExists j hj => ?_
    refine method_name.seq fun name j hj => ?_
    refine tracks_tok (by decide) fun _ j hj => ?_
    have hexpression : ∀ i < j, ∀ c, Method py i 1 isColumn expression (.expression c) :=
      fun i hi => hexpression i (by omega)
    refine (method_tableElements hexpression (by omega) (by omega)).seq fun elements j hj => ?_
    exact tracks_tok (by decide) fun _ _ _ => tracks_pure rfl
  apply Tracks.method (fun _ => id)
  refine tracks_tok (by decide) fun _ j hj => ?_
  refine tracks_ifAdvance (by decide) (fun _ j hj => ?_) ?_
  · exact (method_createIndex (by omega) true).self (by omega)
  refine tracks_ifAt ?_ ?_
  · exact (method_createIndex (by omega) false).self (by omega)
  · exact (htable (by omega)).self (by omega)

omit hexpression in
theorem method_drop : Method py k 1 plain parseDrop .drop := by
  apply Tracks.method (fun _ => id)
  refine tracks_tok (by decide) fun _ j hj => ?_
  refine tracks_tok (by decide) fun _ j hj => ?_
  have hexists : Method py j 0 plain parseIfExists .ifExists := by
    apply Tracks.method (fun _ => id)
    refine tracks_ifAdvance (by decide) (fun _ j hj => ?_) (tracks_pure rfl)
    exact tracks_tok (by decide) fun _ _ _ => tracks_pure rfl
  refine hexists.seq fun ifExists j hj => ?_
  refine method_name.seq fun name j hj => ?_
  exact (method_optional (by decide)).last (by omega) fun _ => rfl

end Create

theorem method_expressionWith {n : ℕ} (hn : k + 2 ≤ n) (c : Bool) :
    Method py k 1 isColumn (expressionWith py n) (.expression c) :=
  method_expression hn (method_select hn).discard c

/-- With fuel for three tokens more than are left. -/
theorem method_statement {n : ℕ} (hn : k + 3 ≤ n) :
    Method py k 1 plain (parseStatement py n) .statement := by
  induction n generalizing k with
  | zero => omega
  | succ n ih =>
    have hexpression : ∀ j < k, ∀ c, Method py j 1 isColumn (expressionWith py n) (.expression c) :=
      fun j hj c => method_expressionWith (by omega) c
    have hfuel : k < n := by omega
    have hword : ∀ {token : Token} {className : String} {type : TokenType} {r : Production},
        token.type = type → type ≠ .eof → TracksAt py k 1 plain token
          (advance >>= fun _ => pure (Statement.transaction className)) (ifTok [type] nothing r) := by
      rintro _ className type r htype heof p hp hleft rfl
      refine follows_taken hp hleft (List.mem_singleton.mpr htype) ?_ fun j hj => tracks_pure rfl
      simpa [eq_comm] using heof
    apply Tracks.method (fun _ => id)
    refine tracks_look fun token => ?_
    show TracksAt py k 1 plain token _ statementRule
    unfold statementRule
    split
    · next ht =>
      rintro p hp hleft rfl
      refine follows_yes hp (by rw [ht]; decide) ?_
      exact (method_select (by omega)).last (Nat.le_refl 1) (fun _ => rfl) p hp hleft
    · next ht =>
      rintro p hp hleft rfl
      repeat refine follows_no hp (by rw [ht]; decide) ?_
      refine follows_yes hp (by rw [ht]; decide) ?_
      exact (method_insert hexpression hfuel).self (Nat.le_refl 1) p hp hleft
    · next ht =>
      rintro p hp hleft rfl
      repeat refine follows_no hp (by rw [ht]; decide) ?_
      refine follows_yes hp (by rw [ht]; decide) ?_
      exact (method_update hexpression hfuel).self (Nat.le_refl 1) p hp hleft
    · next ht =>
      rintro p hp hleft rfl
      repeat refine follows_no hp (by rw [ht]; decide) ?_
      refine follows_yes hp (by rw [ht]; decide) ?_
      exact (method_delete hexpression).self (Nat.le_refl 1) p hp hleft
    · next ht =>
      rintro p hp hleft rfl
      repeat refine follows_no hp (by rw [ht]; decide) ?_
      refine follows_yes hp (by rw [ht]; decide) ?_
      exact (method_create hexpression hfuel).self (Nat.le_refl 1) p hp hleft
    · next ht =>
      rintro p hp hleft rfl
      repeat refine follows_no hp (by rw [ht]; decide) ?_
      refine follows_yes hp (by rw [ht]; decide) ?_
      exact method_drop.self (Nat.le_refl 1) p hp hleft
    · next ht =>
      rintro p hp hleft rfl
      repeat refine follows_no hp (by rw [ht]; decide) ?_
      refine follows_taken hp hleft (by rw [ht]; decide) (by decide) fun j hj => ?_
      exact (ih (by omega)).last (by omega) fun _ => rfl
    · next ht =>
      rintro p hp hleft rfl
      repeat refine follows_no hp (by rw [ht]; decide) ?_
      refine follows_yes hp (by rw [ht]; decide) ?_
      have hbegin : Method py k 1 plain parseBegin .beginTransaction := by
        apply Tracks.method (fun _ => id)
        refine tracks_tok (by decide) fun _ j hj => ?_
        exact (method_optional (by decide)).last (by omega) fun _ => rfl
      exact hbegin.self (Nat.le_refl 1) p hp hleft
    · next ht =>
      rintro p hp hleft rfl
      repeat refine follows_no hp (by rw [ht]; decide) ?_
      exact hword ht (by decide) p hp hleft rfl
    · next ht =>
      rintro p hp hleft rfl
      repeat refine follows_no hp (by rw [ht]; decide) ?_
      exact hword ht (by decide) p hp hleft rfl
    · rintro p hp hleft rfl
      iterate 10 refine follows_no hp (by simp_all) ?_
      exact tracks_reject _ _ p hp hleft

theorem method_statements (hfuel : k + 3 ≤ fuel) {n : ℕ} (hn : k < n) :
    Method py k 0 plain (parseFrom py fuel n) .statements := by
  induction n generalizing k with
  | zero => omega
  | succ n ih =>
    apply Tracks.method (fun _ => id)
    refine tracks_ifAt (tracks_pure rfl) ?_
    refine (method_statement hfuel).seq fun stmt j hj => ?_
    refine (method_optional (by decide)).bind fun separated i hi => ?_
    have hrest : Tracks py i 0 plain (parseFrom py fuel n >>= fun rest => pure (stmt :: rest))
        Phrase.statements.seq :=
      (ih (by omega) (by omega)).last (by omega) fun _ => rfl
    cases separated with
    | true => exact hrest
    | false =>
      intro p hp hleft
      by_cases heof : p.current.type ∈ [.eof]
      · apply follows_yes hp heof
        have hend : parseFrom py fuel n p = .ok ([], p) := by
          obtain ⟨n, rfl⟩ : ∃ n', n = n' + 1 := ⟨n - 1, by omega⟩
          show (if decide (p.current.type ∈ [TokenType.eof]) = true then _ else _ :
            ParserM (List Statement)) p = _
          rw [if_pos (decide_eq_true heof)]
          rfl
        rw [Reader.bind_ok hend]
        exact tracks_pure rfl p hp hleft
      · exact follows_no hp heof (tracks_silent (fun _ => id) rfl hrest p hp hleft)

/-- `parse` follows the grammar, with fuel for three tokens more than there are. -/
theorem method_parse (hfuel : k + 3 ≤ fuel) : Method py k 0 plain (parse py fuel) .statements :=
  method_statements hfuel (by omega)

end Statements

end PySQL.Parse
