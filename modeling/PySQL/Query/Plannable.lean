import PySQL.Query.Optimize

/-!
# Which statements can be planned

The planner takes the bit length of an estimate where it sorts and where it chooses an index.  A
float has none, and most estimates are floats.
-/

namespace PySQL.Query

open Lib

/-! ## Estimates of a query -/

/-- `float(rows)` of an estimate that no float is too small for. -/
def asFloat : Value → PyFloat
  | .float x => x
  | .int n => .ofRat false n
  | _ => .nan

/-- `rows * factor` -/
def share (rows : Value) (factor : ℚ) : Value := .float ((asFloat rows).mul (.ofRat false factor))

def pairRows : Value → Value → Value
  | .int m, .int n => .int (m * n)
  | left, right => .float ((asFloat left).mul (asFloat right))

def Catalog.rowCount (catalog : Catalog) (name : String) : ℤ :=
  ((catalog.getTable name).map TableInfo.rowCountEstimate).getD 1000

def filterRows (predicate : Option Expr) (factor : ℚ) (rows : Value) : Value :=
  if predicate.isSome then share rows factor else rows

def isAggregated (columns : List SelectItem) (groupBy : Option (List Expr)) : Bool :=
  groupBy.isSome || hasAggregates columns

def aggregateRows (columns : List SelectItem) (groupBy : Option (List Expr)) (rows : Value) :
    Value :=
  if isAggregated columns groupBy then atLeastOne (share rows (1 / 10)) else rows

/-- The rows that ORDER BY gets. -/
def sortRows (columns : List SelectItem) (whereClause : Option Expr) (groupBy : Option (List Expr))
    (having : Option Expr) (rows : Value) : Value :=
  filterRows having (5 / 10) <| aggregateRows columns groupBy <|
    filterRows whereClause (33 / 100) rows

def distinctRows (distinct : Bool) (rows : Value) : Value :=
  if distinct then share rows (8 / 10) else rows

def limitRows (limit : Option ℤ) (rows : Value) : Value :=
  match limit with
  | none => rows
  | some n => if rows.compare .lt (.int n) = .ok true then rows else .int n

mutual

def TableRef.rows (catalog : Catalog) : TableRef → Value
  | .simple name _ => .float (.ofRat false (catalog.rowCount name))
  | .join left right _ _ _ => share (pairRows (left.rows catalog) (right.rows catalog)) (1 / 10)
  | .subquery subquery _ => subquery.rows catalog

def SelectStatement.rows (catalog : Catalog) : SelectStatement → Value
  | .mk columns fromClause whereClause groupBy having _ limit _ distinct =>
    limitRows limit <| distinctRows distinct <|
      sortRows columns whereClause groupBy having (fromRows catalog fromClause)

def fromRows (catalog : Catalog) : Option TableRef → Value
  | none => .int 1
  | some ref => ref.rows catalog

end

/-! ## What is asked of a statement -/

/-- An int has a bit length, and what is not more than 1 is taken for one. -/
def HasBitLength (rows : Value) : Prop :=
  (∃ n, rows = .int n) ∨ rows.compare .gt (.int 1) ≠ .ok true

mutual

/-- The rows of all tables can be counted in floats, and what is sorted has a bit length. -/
def TableRef.Countable (catalog : Catalog) : TableRef → Prop
  | .simple name _ => (PyFloat.ofInt (catalog.rowCount name)).isSome
  | .join left right _ _ _ => left.Countable catalog ∧ right.Countable catalog
  | .subquery subquery _ => subquery.Countable catalog

def SelectStatement.Countable (catalog : Catalog) : SelectStatement → Prop
  | .mk columns fromClause whereClause groupBy having orderBy _ _ _ =>
    FromCountable catalog fromClause ∧ (orderBy.getD [] ≠ [] →
      HasBitLength (sortRows columns whereClause groupBy having (fromRows catalog fromClause)))

def FromCountable (catalog : Catalog) : Option TableRef → Prop
  | none => True
  | some ref => ref.Countable catalog

end

mutual

/-- The names of the tables, with their aliases. -/
def TableRef.tables : TableRef → List String
  | .simple name aliasName =>
    match nonempty (some name) with
    | [] => []
    | names => names ++ nonempty aliasName
  | .join left right _ _ _ => left.tables ++ right.tables
  | .subquery subquery _ => subquery.tables

def SelectStatement.tables : SelectStatement → List String
  | .mk _ fromClause _ _ _ _ _ _ _ => fromTables fromClause

def fromTables : Option TableRef → List String
  | none => []
  | some ref => ref.tables

end

/-- A predicate above a join that the pushdown moves to one of its sides. -/
def MovesTo (predicate : Expr) (tables : List String) : Prop :=
  ∃ op left right table, predicate = .binaryOp op left right ∧
    (extractTables predicate).dedup = [table] ∧ table ∈ tables

/-- The filter right above the tables. -/
def scanFilter (columns : List SelectItem) (whereClause : Option Expr)
    (groupBy : Option (List Expr)) (having : Option Expr) : Option Expr :=
  whereClause <|> if isAggregated columns groupBy then none else having

mutual

/-- Each table that is read through an index, since the filter right above it names a column of the
index, is estimated to give rows that have a bit length. -/
def TableRef.Indexable (catalog : Catalog) : TableRef → Option Expr → Prop
  | .simple name _, filter => ∀ predicate ∈ filter, name ≠ "" →
    (findApplicableIndex catalog name predicate).isSome →
      HasBitLength (share (.float (.ofRat false (catalog.rowCount name))) (33 / 100))
  | .join left right _ _ _, filter =>
    -- what is below a filter that was moved is left as it is
    (∃ predicate ∈ filter, MovesTo predicate (left.tables ++ right.tables)) ∨
      left.Indexable catalog none ∧ right.Indexable catalog none
  | .subquery subquery _, _ => subquery.Indexable catalog

def SelectStatement.Indexable (catalog : Catalog) : SelectStatement → Prop
  | .mk columns fromClause whereClause groupBy having _ _ _ _ =>
    FromIndexable catalog fromClause (scanFilter columns whereClause groupBy having)

def FromIndexable (catalog : Catalog) : Option TableRef → Option Expr → Prop
  | none, _ => True
  | some ref, filter => ref.Indexable catalog filter

end

mutual

/-- No LIMIT is a number that floats are too small for, nor is a product of two of them. -/
def TableRef.LimitsFit : TableRef → Prop
  | .simple _ _ => True
  | .join left right _ _ _ => left.LimitsFit ∧ right.LimitsFit
  | .subquery subquery _ => subquery.LimitsFit

def SelectStatement.LimitsFit : SelectStatement → Prop
  | .mk _ fromClause _ _ _ _ limit _ _ => FromLimitsFit fromClause ∧ ∀ n ∈ limit, |n| ≤ 2 ^ 500

def FromLimitsFit : Option TableRef → Prop
  | none => True
  | some ref => ref.LimitsFit

end

def Statement.Plannable (catalog : Catalog) : Statement → Prop
  | .select stmt => stmt.Countable catalog ∧ stmt.Indexable catalog
  | .insert stmt => (PyFloat.ofInt stmt.values.length).isSome
  | .update _ | .delete _ | .createTable _ | .dropTable _ | .createIndex _ => True
  | .explain stmt => stmt.Plannable catalog
  | .transaction _ => False

def Statement.LimitsFit : Statement → Prop
  | .select stmt => stmt.LimitsFit
  | .explain stmt => stmt.LimitsFit
  | _ => True

/-! ## Estimates -/

/-- An int or a float. -/
def Numeric : Value → Prop
  | .int _ | .float _ => True
  | _ => False

theorem numeric_share (rows : Value) (factor : ℚ) : Numeric (share rows factor) := trivial

theorem operand_int (n : ℤ) :
    (Value.int n).operand = (PyFloat.ofInt n).elim (.error PyError.overflowError) .ok := rfl

theorem operand_int_isOk {n : ℤ} :
    (Value.int n).operand.isOk = true ↔ (PyFloat.ofInt n).isSome = true := by
  rw [operand_int]
  cases PyFloat.ofInt n with
  | none => exact iff_of_false (fun h => nomatch h) (fun h => nomatch h)
  | some x => exact iff_of_true rfl rfl

theorem operand_eq_asFloat {rows : Value} {x : PyFloat} (hnum : Numeric rows)
    (h : rows.operand = .ok x) : x = asFloat rows := by
  cases rows with
  | float y => exact (Except.ok.inj h).symm
  | int n =>
    rw [operand_int] at h
    unfold PyFloat.ofInt at h
    dsimp only at h
    split at h
    · cases h
    · exact (Except.ok.inj h).symm
  | _ => exact hnum.elim

theorem scaled_eq_share {rows r : Value} {factor : ℚ} (hnum : Numeric rows)
    (h : scaled rows factor = .ok r) : r = share rows factor := by
  have harith : scaled rows factor = (do
      let x ← rows.operand
      return .float (x.mul (.ofRat false factor))) := by
    cases rows with
    | float y => rfl
    | int n => rfl
    | _ => exact hnum.elim
  rw [harith] at h
  obtain ⟨x, hx, h⟩ := bind_eq_ok h
  rw [← Except.ok.inj h, operand_eq_asFloat hnum hx, share]

theorem mul_eq_pairRows {left right r : Value} (hleft : Numeric left) (hright : Numeric right)
    (h : left.mul right = .ok r) : r = pairRows left right := by
  have harith : left.mul right = .ok (pairRows left right) ∨ left.mul right = (do
      let x ← left.operand
      let y ← right.operand
      return .float (x.mul y)) ∧
        pairRows left right = .float ((asFloat left).mul (asFloat right)) := by
    cases left with
    | float x =>
      cases right with
      | float y => exact .inr ⟨rfl, rfl⟩
      | int n => exact .inr ⟨rfl, rfl⟩
      | _ => exact hright.elim
    | int m =>
      cases right with
      | float y => exact .inr ⟨rfl, rfl⟩
      | int n => exact .inl rfl
      | _ => exact hright.elim
    | _ => exact hleft.elim
  rcases harith with heq | ⟨heq, hpair⟩
  · exact (Except.ok.inj (heq.symm.trans h)).symm
  · rw [heq] at h
    obtain ⟨x, hx, h⟩ := bind_eq_ok h
    obtain ⟨y, hy, h⟩ := bind_eq_ok h
    rw [← Except.ok.inj h, hpair, operand_eq_asFloat hleft hx, operand_eq_asFloat hright hy]

theorem bitLength_isOk {rows : Value} :
    (bitLength (atLeastOne rows)).isOk = true ↔ HasBitLength rows := by
  unfold atLeastOne HasBitLength
  split
  · next hmore =>
    cases rows with
    | int n => exact iff_of_true rfl (.inl ⟨n, rfl⟩)
    | _ =>
      refine iff_of_false (fun h => nomatch h) ?_
      rintro (⟨n, hn⟩ | hnot)
      · cases hn
      · exact hnot hmore
  · next hnot => exact iff_of_true rfl (.inr hnot)

theorem numeric_atLeastOne {rows : Value} (h : Numeric rows) : Numeric (atLeastOne rows) := by
  unfold atLeastOne
  split
  · exact h
  · trivial

theorem numeric_filterRows {rows : Value} (predicate : Option Expr) (factor : ℚ)
    (h : Numeric rows) : Numeric (filterRows predicate factor rows) := by
  unfold filterRows
  split
  · exact numeric_share _ _
  · exact h

theorem numeric_aggregateRows {rows : Value} (columns : List SelectItem)
    (groupBy : Option (List Expr)) (h : Numeric rows) :
    Numeric (aggregateRows columns groupBy rows) := by
  unfold aggregateRows
  split
  · exact numeric_atLeastOne (numeric_share _ _)
  · exact h

theorem numeric_distinctRows {rows : Value} (distinct : Bool) (h : Numeric rows) :
    Numeric (distinctRows distinct rows) := by
  unfold distinctRows
  split
  · exact numeric_share _ _
  · exact h

theorem numeric_limitRows {rows : Value} (limit : Option ℤ) (h : Numeric rows) :
    Numeric (limitRows limit rows) := by
  unfold limitRows
  split
  · exact h
  · split
    · exact h
    · trivial

/-! ## The nodes of a query -/

/-- Nodes above a base that the passes go through: no filter of them is right above a scan or a
join. -/
inductive Over (base : PlanNode) : PlanNode → Prop where
  | refl : Over base base
  | wrap {info : PlanInfo} {child : PlanNode} (hover : Over base child)
    (hname : info.tableName = none) (hscan : info.type ≠ .seqScan)
    (hfilter : info.type = .filter → child.info.type ≠ .seqScan ∧ child.info.type.isJoin = false) :
    Over base (.mk info [child])

variable {catalog : Catalog} {base node current : PlanNode}

theorem Over.planTables (h : Over base node) : planTables node = planTables base := by
  induction h with
  | refl => rfl
  | wrap _ hname _ _ ih =>
    rw [Query.planTables, hname, nonempty, planTablesAll, planTablesAll, ih, List.append_nil]
    rfl

theorem selectIndex_other {info : PlanInfo} (h : info.type ≠ .seqScan ∨ info.predicate = none) :
    selectIndex catalog info = .ok info := by
  unfold selectIndex
  split
  · next htype hpredicate _ =>
    rcases h with h | h
    · exact absurd htype h
    · rw [h] at hpredicate
      cases hpredicate
  · rfl

/-- A node that the index selection leaves as it is. -/
theorem selectable_mk {info : PlanInfo} {children : List PlanNode}
    (h : info.type ≠ .seqScan ∨ info.predicate = none) :
    Selectable catalog (.mk info children) ↔ SelectableAll catalog children := by
  rw [Selectable, selectIndex_other h]
  exact and_iff_right rfl

theorem selectableAll_singleton : SelectableAll catalog [node] ↔ Selectable catalog node := by
  rw [SelectableAll, SelectableAll, and_true]

theorem Over.selectable (h : Over base node) :
    Selectable catalog node ↔ Selectable catalog base := by
  induction h with
  | refl => rfl
  | wrap _ _ hscan _ ih => rw [selectable_mk (.inl hscan), selectableAll_singleton, ih]

/-- The pushdown of one child of a node that is no filter over a scan or a join. -/
theorem pushdownPredicates_child {info : PlanInfo} {child node' : PlanNode}
    (hfilter : info.type = .filter → child.info.type ≠ .seqScan ∧ child.info.type.isJoin = false)
    (h : pushdownPredicates (.mk info [child]) = .ok node') :
    ∃ child', pushdownPredicates child = .ok child' ∧ node' = .mk info [child'] := by
  by_cases htype : info.type = .filter
  · obtain ⟨childInfo, grandchildren⟩ := child
    obtain ⟨hscan, hjoin⟩ := hfilter htype
    rw [pushdownPredicates_filter htype, if_neg fun h => hscan h.1] at h
    simp only [show childInfo.type.isJoin = false from hjoin, Bool.false_eq_true, if_false] at h
    obtain ⟨pushed, hpushed, h⟩ := bind_eq_ok h
    obtain rfl := Except.ok.inj hpushed
    obtain ⟨child', hchild, h⟩ := bind_eq_ok h
    exact ⟨child', hchild, (Except.ok.inj h).symm⟩
  · rw [pushdownPredicates_other fun _ heq => absurd heq htype] at h
    obtain ⟨children', hchildren, h⟩ := bind_eq_ok h
    rw [pushdownAll] at hchildren
    obtain ⟨child', hchild, hchildren⟩ := bind_eq_ok hchildren
    obtain ⟨rest, hrest, hchildren⟩ := bind_eq_ok hchildren
    obtain rfl := Except.ok.inj hrest
    obtain rfl := Except.ok.inj hchildren
    exact ⟨child', hchild, (Except.ok.inj h).symm⟩

theorem Over.pushdown (h : Over base node) : ∀ {node'}, pushdownPredicates node = .ok node' →
    ∃ base', pushdownPredicates base = .ok base' ∧
      (Selectable catalog node' ↔ Selectable catalog base') := by
  induction h with
  | refl => exact fun hnode => ⟨_, hnode, Iff.rfl⟩
  | wrap _ _ hscan hfilter ih =>
    intro node' hnode
    obtain ⟨child', hchild, rfl⟩ := pushdownPredicates_child hfilter hnode
    obtain ⟨base', hbase, hiff⟩ := ih hchild
    refine ⟨base', hbase, ?_⟩
    rw [selectable_mk (.inl hscan), selectableAll_singleton, hiff]

/-- A node of another kind than a filter, a scan or a join. -/
def PlanNodeType.IsPlain (type : PlanNodeType) : Prop :=
  type ≠ .filter ∧ type ≠ .seqScan ∧ type.isJoin = false

/-- A plan, or a node that was put above it. -/
def Wraps (current node : PlanNode) : Prop :=
  node = current ∨ ∃ info, node = .mk info [current] ∧ info.type.IsPlain ∧ info.tableName = none

theorem Wraps.over (h : Wraps current node) (hover : Over base current) : Over base node := by
  rcases h with rfl | ⟨info, rfl, hplain, hname⟩
  · exact hover
  · exact .wrap hover hname hplain.2.1 fun htype => absurd htype hplain.1

theorem Wraps.plain (h : Wraps current node) (hplain : current.info.type.IsPlain)
    (hname : current.info.tableName = none) :
    node.info.type.IsPlain ∧ node.info.tableName = none := by
  rcases h with rfl | ⟨info, rfl, hplain', hname'⟩
  · exact ⟨hplain, hname⟩
  · exact ⟨hplain', hname'⟩

theorem above_spec {info : PlanInfo} {factor cost : ℚ} (hnum : Numeric current.info.estimatedRows)
    (h : above info factor cost current = .ok node) : ∃ x,
      node = .mk { info with
        estimatedRows := share current.info.estimatedRows factor
        estimatedCost := x } [current] := by
  obtain ⟨rows, hrows, h⟩ := bind_eq_ok h
  obtain ⟨x, -, h⟩ := bind_eq_ok h
  rw [scaled_eq_share hnum hrows] at h
  exact ⟨x, (Except.ok.inj h).symm⟩

theorem planFilter_spec {predicate : Option Expr} {factor : ℚ}
    (hnum : Numeric current.info.estimatedRows)
    (h : planFilter predicate factor current = .ok node) :
    node.info.estimatedRows = filterRows predicate factor current.info.estimatedRows ∧
      (predicate = none ∧ node = current ∨
        ∃ p x, predicate = some p ∧ node = filterNode (some p) x current) := by
  cases predicate with
  | none =>
    obtain rfl := Except.ok.inj h
    exact ⟨rfl, .inl ⟨rfl, rfl⟩⟩
  | some p =>
    obtain ⟨cost, rfl⟩ := above_spec hnum h
    exact ⟨rfl, .inr ⟨p, (_, cost), rfl, rfl⟩⟩

theorem planAggregate_spec {columns : List SelectItem} {groupBy : Option (List Expr)}
    (hnum : Numeric current.info.estimatedRows)
    (h : planAggregate columns groupBy current = .ok node) :
    node.info.estimatedRows = aggregateRows columns groupBy current.info.estimatedRows ∧
      Wraps current node ∧ (isAggregated columns groupBy = false → node = current) ∧
      (isAggregated columns groupBy = true → node.info.type.IsPlain) := by
  unfold planAggregate at h
  unfold aggregateRows isAggregated
  split at h
  · next hagg =>
    obtain ⟨rows, hrows, h⟩ := bind_eq_ok h
    obtain ⟨cost, -, h⟩ := bind_eq_ok h
    rw [scaled_eq_share hnum hrows] at h
    obtain rfl := Except.ok.inj h
    rw [if_pos hagg]
    exact ⟨rfl, .inr ⟨_, rfl, ⟨nofun, nofun, rfl⟩, rfl⟩, fun hnot => absurd hagg (by simp [hnot]),
      fun _ => ⟨nofun, nofun, rfl⟩⟩
  · next hagg =>
    obtain rfl := Except.ok.inj h
    rw [if_neg hagg]
    exact ⟨rfl, .inl rfl, fun _ => rfl, fun hnot => absurd hnot hagg⟩

theorem planProject_spec {columns : List SelectItem} (h : planProject columns current = .ok node) :
    node.info.estimatedRows = current.info.estimatedRows ∧
      ∃ info, node = .mk info [current] ∧ info.type.IsPlain ∧ info.tableName = none := by
  obtain ⟨cost, -, h⟩ := bind_eq_ok h
  obtain rfl := Except.ok.inj h
  exact ⟨rfl, _, rfl, ⟨nofun, nofun, rfl⟩, rfl⟩

theorem planSort_spec {orderBy : Option (List OrderByItem)}
    (h : planSort orderBy current = .ok node) :
    node.info.estimatedRows = current.info.estimatedRows ∧ Wraps current node ∧
      (orderBy.getD [] ≠ [] → HasBitLength current.info.estimatedRows) := by
  unfold planSort at h
  split at h
  · obtain rfl := Except.ok.inj h
    exact ⟨rfl, .inl rfl, fun hne => absurd rfl hne⟩
  · obtain rfl := Except.ok.inj h
    exact ⟨rfl, .inl rfl, fun hne => absurd rfl hne⟩
  · obtain ⟨bits, hbits, h⟩ := bind_eq_ok h
    obtain ⟨pairs, -, h⟩ := bind_eq_ok h
    obtain ⟨cost, -, h⟩ := bind_eq_ok h
    obtain rfl := Except.ok.inj h
    exact ⟨rfl, .inr ⟨_, rfl, ⟨nofun, nofun, rfl⟩, rfl⟩,
      fun _ => bitLength_isOk.mp (by rw [hbits]; rfl)⟩

theorem planDistinct_spec {distinct : Bool} (hnum : Numeric current.info.estimatedRows)
    (h : planDistinct distinct current = .ok node) :
    node.info.estimatedRows = distinctRows distinct current.info.estimatedRows ∧
      Wraps current node := by
  unfold planDistinct at h
  unfold distinctRows
  split at h
  · next hdistinct =>
    obtain ⟨cost, rfl⟩ := above_spec hnum h
    rw [if_pos hdistinct]
    exact ⟨rfl, .inr ⟨_, rfl, ⟨nofun, nofun, rfl⟩, rfl⟩⟩
  · next hdistinct =>
    obtain rfl := Except.ok.inj h
    rw [if_neg hdistinct]
    exact ⟨rfl, .inl rfl⟩

theorem planLimit_spec {limit offset : Option ℤ} (h : planLimit limit offset current = .ok node) :
    node.info.estimatedRows = limitRows limit current.info.estimatedRows ∧ Wraps current node := by
  cases limit with
  | none =>
    obtain rfl := Except.ok.inj h
    exact ⟨rfl, .inl rfl⟩
  | some n =>
    obtain ⟨less, hless, h⟩ := bind_eq_ok h
    obtain rfl := Except.ok.inj h
    refine ⟨?_, .inr ⟨_, rfl, ⟨nofun, nofun, rfl⟩, rfl⟩⟩
    cases less with
    | true => exact (if_pos hless).symm
    | false => exact (if_neg (by rw [hless]; exact nofun)).symm

/-! ## What the planner makes of a query -/

/-- What holds of the plan of the tables. -/
structure TablesPlan (catalog : Catalog) (rows : Value) (tables : List String)
    (indexable : Option Expr → Prop) (tree : PlanNode) : Prop where
  estimate : tree.info.estimatedRows = rows
  numeric : Numeric rows
  names : planTables tree = tables
  /-- Before the pushdown no scan has a predicate. -/
  unmoved : Selectable catalog tree
  selectable : ∀ {tree'}, pushdownPredicates tree = .ok tree' →
    (Selectable catalog tree' ↔ indexable none)
  filtered : ∀ {predicate x tree'},
    pushdownPredicates (filterNode (some predicate) x tree) = .ok tree' →
      (Selectable catalog tree' ↔ indexable (some predicate))

/-- What holds of the plan of a query. -/
structure QueryPlan (catalog : Catalog) (rows : Value) (tables : List String) (indexable : Prop)
    (node : PlanNode) : Prop where
  estimate : node.info.estimatedRows = rows
  numeric : Numeric rows
  names : planTables node = tables
  plain : node.info.type.IsPlain
  unnamed : node.info.tableName = none
  unmoved : Selectable catalog node
  selectable : ∀ {node'}, pushdownPredicates node = .ok node' →
    (Selectable catalog node' ↔ indexable)

theorem selectable_filterNode {predicate : Option Expr} {x : Value × PyFloat} :
    Selectable catalog (filterNode predicate x node) ↔ Selectable catalog node := by
  have hscan : PlanNodeType.filter ≠ .seqScan := by decide
  exact (selectable_mk (.inl hscan)).trans selectableAll_singleton

theorem pushdownPredicates_filterNode_child {predicate : Option Expr} {x : Value × PyFloat}
    {child node' : PlanNode} (hscan : child.info.type ≠ .seqScan)
    (hjoin : child.info.type.isJoin = false)
    (h : pushdownPredicates (filterNode predicate x child) = .ok node') :
    ∃ child', pushdownPredicates child = .ok child' ∧
      (Selectable catalog node' ↔ Selectable catalog child') := by
  obtain ⟨child', hchild, rfl⟩ := pushdownPredicates_child (fun _ => ⟨hscan, hjoin⟩) h
  exact ⟨child', hchild, selectable_filterNode⟩

theorem valuesPlan : TablesPlan catalog (.int 1) [] (fun _ => True)
    (.mk { type := .values, estimatedRows := .int 1 } []) := by
  have hscan : PlanNodeType.values ≠ .seqScan := by decide
  have hnone : pushdownPredicates (.mk { type := .values, estimatedRows := .int 1 } []) =
      .ok (.mk { type := .values, estimatedRows := .int 1 } []) := by
    simp only [pushdownPredicates, pushdownAll]
    rfl
  have hselectable : Selectable catalog (.mk { type := .values, estimatedRows := .int 1 } []) :=
    (selectable_mk (.inl hscan)).mpr trivial
  constructor
  case estimate => rfl
  case numeric => trivial
  case names =>
    rw [planTables, planTablesAll]
    rfl
  case unmoved => exact hselectable
  case selectable =>
    intro tree' h
    obtain rfl := Except.ok.inj (hnone.symm.trans h)
    exact iff_of_true hselectable trivial
  case filtered =>
    intro predicate x tree' h
    obtain ⟨child', hchild, hiff⟩ := pushdownPredicates_filterNode_child (by decide) rfl h
    obtain rfl := Except.ok.inj (hnone.symm.trans hchild)
    exact hiff.trans (iff_of_true hselectable trivial)

/-- The plan of a FROM-subquery: its root gets another alias. -/
theorem QueryPlan.subquery {rows : Value} {tables : List String} {indexable : Prop}
    {info info' : PlanInfo} {children : List PlanNode}
    (h : QueryPlan catalog rows tables indexable (.mk info children))
    (htype : info'.type = info.type) (hname : info'.tableName = info.tableName)
    (hrows : info'.estimatedRows = info.estimatedRows) :
    TablesPlan catalog rows tables (fun _ => indexable) (.mk info' children) := by
  have hold : info.type.IsPlain := h.plain
  have hplain : info'.type.IsPlain := by
    rw [htype]
    exact hold
  have hselectable : ∀ {tree'}, pushdownPredicates (.mk info' children) = .ok tree' →
      (Selectable catalog tree' ↔ indexable) := by
    intro tree' htree
    rw [pushdownPredicates_other fun _ heq => absurd heq hplain.1] at htree
    obtain ⟨children', hchildren, htree⟩ := bind_eq_ok htree
    obtain rfl := Except.ok.inj htree
    have hnode : pushdownPredicates (.mk info children) = .ok (.mk info children') := by
      rw [pushdownPredicates_other fun _ heq => absurd heq hold.1, hchildren]
      rfl
    rw [← h.selectable hnode, selectable_mk (.inl hplain.2.1), selectable_mk (.inl hold.2.1)]
  constructor
  case estimate => exact hrows.trans h.estimate
  case numeric => exact h.numeric
  case names =>
    rw [← h.names, planTables, planTables, hname, show info.tableName = none from h.unnamed]
    rfl
  case unmoved =>
    exact (selectable_mk (.inl hplain.2.1)).mpr ((selectable_mk (.inl hold.2.1)).mp h.unmoved)
  case selectable => exact hselectable
  case filtered =>
    intro predicate x tree' htree
    have hscan : (PlanNode.mk info' children).info.type ≠ .seqScan := hplain.2.1
    obtain ⟨child', hchild, hiff⟩ := pushdownPredicates_filterNode_child hscan hplain.2.2 htree
    exact hiff.trans (hselectable hchild)

theorem selectIndex_scan {info : PlanInfo} (predicate : Expr) (name : String)
    (htype : info.type = .seqScan) (hpredicate : info.predicate = some predicate)
    (hname : info.tableName = some name) : (selectIndex catalog info).isOk = true ↔
      (name ≠ "" → (findApplicableIndex catalog name predicate).isSome →
        HasBitLength info.estimatedRows) := by
  unfold selectIndex
  by_cases hempty : name = ""
  · simp only [htype, hpredicate, hname, nonempty, hempty, if_true]
    exact iff_of_true rfl fun hne => absurd rfl hne
  · simp only [htype, hpredicate, hname, nonempty, hempty, if_false]
    cases hindex : findApplicableIndex catalog name predicate with
    | none => exact iff_of_true rfl fun _ hsome => nomatch hsome
    | some index =>
      dsimp only
      rw [bind_isOk, ← bitLength_isOk, isOk_iff]
      constructor
      · exact fun ⟨bits, hbits, _⟩ _ _ => ⟨bits, hbits⟩
      · intro h
        obtain ⟨bits, hbits⟩ := h hempty rfl
        exact ⟨bits, hbits, rfl⟩

theorem scanPlan {scan : PlanInfo} {rows : PyFloat} {name : String} {aliasName : Option String}
    (htype : scan.type = .seqScan) (hpredicate : scan.predicate = none)
    (hname : scan.tableName = some name) (halias : scan.aliasName = aliasName)
    (hrows : scan.estimatedRows = .float rows) :
    TablesPlan catalog (.float rows) (TableRef.simple name aliasName).tables (fun filter =>
      ∀ predicate ∈ filter, name ≠ "" → (findApplicableIndex catalog name predicate).isSome →
        HasBitLength (share (.float rows) (33 / 100))) (.mk scan []) := by
  have hselectable : Selectable catalog (.mk scan []) :=
    (selectable_mk (.inr hpredicate)).mpr trivial
  have hscalable : Scalable scan.estimatedRows := by
    rw [hrows]
    exact scalable_float _
  have htree : FromTree (.mk scan []) := .scan htype hpredicate hscalable
  constructor
  case estimate => exact hrows
  case numeric => trivial
  case names =>
    by_cases hempty : name = ""
    · simp [planTables, planTablesAll, TableRef.tables, nonempty, hname, halias, hempty]
    · simp [planTables, planTablesAll, TableRef.tables, nonempty, hname, halias, hempty]
  case unmoved => exact hselectable
  case selectable =>
    intro tree' h
    obtain rfl := Except.ok.inj ((pushdownPredicates_fromTree htree).symm.trans h)
    exact iff_of_true hselectable fun _ hnone => nomatch hnone
  case filtered =>
    intro predicate x tree' h
    rw [filterNode, pushdownPredicates_filter rfl, if_pos ⟨htype, by rw [hpredicate]; rfl⟩] at h
    obtain ⟨estimatedRows, hest, h⟩ := bind_eq_ok h
    obtain rfl := Except.ok.inj h
    have hnum : Numeric scan.estimatedRows := by
      rw [hrows]
      trivial
    obtain rfl := scaled_eq_share hnum hest
    rw [Selectable, SelectableAll, and_true, hrows]
    refine Iff.trans (selectIndex_scan predicate name ?htype ?hpredicate ?hname) ?_
    case htype => exact htype
    case hpredicate => rfl
    case hname => exact hname
    constructor
    · intro hok p hp
      obtain rfl := Option.some.inj hp
      exact hok
    · exact fun hall => hall predicate rfl

theorem planFilter_shape {predicate : Expr} {factor : ℚ}
    (h : planFilter (some predicate) factor current = .ok node) :
    ∃ x, node = filterNode (some predicate) x current := by
  obtain ⟨rows, -, h⟩ := bind_eq_ok h
  obtain ⟨cost, -, h⟩ := bind_eq_ok h
  exact ⟨(rows, cost), (Except.ok.inj h).symm⟩

theorem tryPushToJoin_spec {predicate : Expr} {a b : PlanNode} {pushed : Option (List PlanNode)}
    (h : tryPushToJoin (some predicate) [a, b] = .ok pushed) :
    pushed = none ∧ ¬MovesTo predicate (planTables a ++ planTables b) ∨
      ∃ x, (pushed = some [filterNode (some predicate) x a, b] ∨
        pushed = some [a, filterNode (some predicate) x b]) ∧
        MovesTo predicate (planTables a ++ planTables b) := by
  unfold tryPushToJoin at h
  split at h
  · next op left right heq =>
    obtain rfl := Option.some.inj heq
    split at h
    · next table htables =>
      have hmoves : table ∈ planTables a ++ planTables b →
          MovesTo (.binaryOp op left right) (planTables a ++ planTables b) :=
        fun hmem => ⟨op, left, right, table, rfl, htables, hmem⟩
      rw [pushToChild] at h
      split at h
      · next hmem =>
        obtain ⟨filter, hfilter, h⟩ := bind_eq_ok h
        obtain rfl := Except.ok.inj h
        obtain ⟨x, rfl⟩ := planFilter_shape hfilter
        exact .inr ⟨x, .inl rfl, hmoves (List.mem_append_left _ hmem)⟩
      · next hnota =>
        obtain ⟨rest, hrest, h⟩ := bind_eq_ok h
        rw [pushToChild] at hrest
        split at hrest
        · next hmem =>
          obtain ⟨filter, hfilter, hrest⟩ := bind_eq_ok hrest
          obtain rfl := Except.ok.inj hrest
          obtain rfl := Except.ok.inj h
          obtain ⟨x, rfl⟩ := planFilter_shape hfilter
          exact .inr ⟨x, .inr rfl, hmoves (List.mem_append_right _ hmem)⟩
        · next hnotb =>
          obtain ⟨none', hnone, hrest⟩ := bind_eq_ok hrest
          obtain rfl := Except.ok.inj hnone
          obtain rfl := Except.ok.inj hrest
          obtain rfl := Except.ok.inj h
          refine .inl ⟨rfl, ?_⟩
          rintro ⟨_, _, _, table', -, htables', hmem⟩
          obtain rfl : table = table' := List.singleton_injective (htables.symm.trans htables')
          exact (List.mem_append.mp hmem).elim hnota hnotb
    · next hmany =>
      obtain rfl := Except.ok.inj h
      refine .inl ⟨rfl, ?_⟩
      rintro ⟨_, _, _, table, -, htables, -⟩
      exact hmany table htables
  · next hnot =>
    obtain rfl := Except.ok.inj h
    refine .inl ⟨rfl, ?_⟩
    rintro ⟨op, left, right, _, heq, -⟩
    exact hnot op left right (congrArg some heq)

/-- The plan of a join of two planned references. -/
theorem joinPlan {info : PlanInfo} {rows rows₁ rows₂ : Value} {tables₁ tables₂ : List String}
    {indexable₁ indexable₂ : Option Expr → Prop} {a b : PlanNode}
    (ha : TablesPlan catalog rows₁ tables₁ indexable₁ a)
    (hb : TablesPlan catalog rows₂ tables₂ indexable₂ b)
    (htype : info.type = .nestedLoopJoin ∨ info.type = .hashJoin) (hname : info.tableName = none)
    (hrows : info.estimatedRows = rows) (hnum : Numeric rows) :
    TablesPlan catalog rows (tables₁ ++ tables₂) (fun filter =>
      (∃ predicate ∈ filter, MovesTo predicate (tables₁ ++ tables₂)) ∨
        indexable₁ none ∧ indexable₂ none) (.mk info [a, b]) := by
  have hscan : info.type ≠ .seqScan := by rcases htype with h | h <;> rw [h] <;> decide
  have hfilter : info.type ≠ .filter := by rcases htype with h | h <;> rw [h] <;> decide
  have hjoin : info.type.isJoin = true := by rcases htype with h | h <;> rw [h] <;> rfl
  have hpair : ∀ a b, Selectable catalog (.mk info [a, b]) ↔
      Selectable catalog a ∧ Selectable catalog b := by
    intro a b
    rw [selectable_mk (.inl hscan), SelectableAll, selectableAll_singleton]
  have hselectable : ∀ {tree'}, pushdownPredicates (.mk info [a, b]) = .ok tree' →
      (Selectable catalog tree' ↔ indexable₁ none ∧ indexable₂ none) := by
    intro tree' h
    rw [pushdownPredicates_other fun _ heq => absurd heq hfilter] at h
    obtain ⟨children', hchildren, h⟩ := bind_eq_ok h
    obtain ⟨a', ha', hchildren⟩ := bind_eq_ok hchildren
    obtain ⟨rest, hrest, hchildren⟩ := bind_eq_ok hchildren
    obtain ⟨b', hb', hrest⟩ := bind_eq_ok hrest
    obtain ⟨none', hnone, hrest⟩ := bind_eq_ok hrest
    obtain rfl := Except.ok.inj hnone
    obtain rfl := Except.ok.inj hrest
    obtain rfl := Except.ok.inj hchildren
    obtain rfl := Except.ok.inj h
    rw [hpair, ha.selectable ha', hb.selectable hb']
  constructor
  case estimate => exact hrows
  case numeric => exact hnum
  case names =>
    rw [planTables, planTablesAll, planTablesAll, planTablesAll, hname, ha.names, hb.names,
      List.append_nil]
    rfl
  case unmoved => exact (hpair a b).mpr ⟨ha.unmoved, hb.unmoved⟩
  case selectable =>
    intro tree' h
    rw [hselectable h]
    exact ⟨.inr, fun h => h.resolve_left fun ⟨_, hnone, _⟩ => nomatch hnone⟩
  case filtered =>
    intro predicate x tree' h
    rw [filterNode, pushdownPredicates_filter rfl, if_neg fun h => hscan h.1, if_pos hjoin] at h
    obtain ⟨pushed, hpushed, h⟩ := bind_eq_ok h
    rw [← ha.names, ← hb.names]
    rcases tryPushToJoin_spec hpushed with ⟨rfl, hnot⟩ | ⟨y, hpushed, hmoves⟩
    · obtain ⟨tree'', htree, h⟩ := bind_eq_ok h
      obtain rfl := Except.ok.inj h
      refine (selectable_filterNode (x := x)).trans ?_
      rw [hselectable htree]
      refine ⟨.inr, fun h => h.resolve_left ?_⟩
      rintro ⟨p, hp, hmoves⟩
      obtain rfl := Option.some.inj hp
      exact hnot hmoves
    · -- the sides are left as they are, and their scans have no predicates
      refine iff_of_true ?_ (.inl ⟨predicate, rfl, hmoves⟩)
      rcases hpushed with rfl | rfl
      · obtain rfl := Except.ok.inj h
        exact (hpair _ _).mpr ⟨selectable_filterNode.mpr ha.unmoved, hb.unmoved⟩
      · obtain rfl := Except.ok.inj h
        exact (hpair _ _).mpr ⟨ha.unmoved, selectable_filterNode.mpr hb.unmoved⟩

section Stages

variable {rows : Value} {tables : List String} {indexable : Option Expr → Prop} {tree : PlanNode}
  {columns : List SelectItem} {whereClause : Option Expr} {groupBy : Option (List Expr)}
  {having : Option Expr} {orderBy : Option (List OrderByItem)} {limit offset : Option ℤ}
  {distinct : Bool}

/-- The part of a plan that the pushdown changes: the plan of the tables with the filter right above
it. -/
structure PlanBase (catalog : Catalog) (tables : List String) (indexable : Prop)
    (base : PlanNode) : Prop where
  names : planTables base = tables
  unmoved : Selectable catalog base
  selectable : ∀ {base'}, pushdownPredicates base = .ok base' →
    (Selectable catalog base' ↔ indexable)

theorem TablesPlan.bareBase (h : TablesPlan catalog rows tables indexable tree) :
    PlanBase catalog tables (indexable none) tree :=
  ⟨h.names, h.unmoved, h.selectable⟩

theorem TablesPlan.filterBase (h : TablesPlan catalog rows tables indexable tree) (predicate : Expr)
    (x : Value × PyFloat) :
    PlanBase catalog tables (indexable (some predicate)) (filterNode (some predicate) x tree) where
  names := by
    rw [← h.names, filterNode, planTables, planTablesAll, planTablesAll, List.append_nil]
    rfl
  unmoved := selectable_filterNode.mpr h.unmoved
  selectable := h.filtered

/-- WHERE, GROUP BY and HAVING. -/
theorem planFilters_spec {filtered aggregated node : PlanNode}
    (htree : TablesPlan catalog rows tables indexable tree)
    (hwhere : planFilter whereClause (33 / 100) tree = .ok filtered)
    (haggregate : planAggregate columns groupBy filtered = .ok aggregated)
    (hhaving : planFilter having (5 / 10) aggregated = .ok node) :
    node.info.estimatedRows = sortRows columns whereClause groupBy having rows ∧
      ∃ base, Over base node ∧
        PlanBase catalog tables (indexable (scanFilter columns whereClause groupBy having))
          base := by
  have hnum : Numeric tree.info.estimatedRows := by
    rw [htree.estimate]
    exact htree.numeric
  obtain ⟨hrows₁, hshape₁⟩ := planFilter_spec hnum hwhere
  have hnum₁ : Numeric filtered.info.estimatedRows := by
    rw [hrows₁]
    exact numeric_filterRows _ _ hnum
  obtain ⟨hrows₂, hwraps, hsame, hplain⟩ := planAggregate_spec hnum₁ haggregate
  have hnum₂ : Numeric aggregated.info.estimatedRows := by
    rw [hrows₂]
    exact numeric_aggregateRows _ _ hnum₁
  obtain ⟨hrows₃, hshape₃⟩ := planFilter_spec hnum₂ hhaving
  refine ⟨by rw [hrows₃, hrows₂, hrows₁, htree.estimate, sortRows], ?_⟩
  -- HAVING above a node that is neither a scan nor a join
  have hover : ∀ {base}, Over base aggregated → aggregated.info.type ≠ .seqScan →
      aggregated.info.type.isJoin = false → Over base node := by
    intro base hover hscan hjoin
    rcases hshape₃ with ⟨-, rfl⟩ | ⟨p, x, -, rfl⟩
    · exact hover
    · exact .wrap hover rfl (fun h => nomatch h) fun _ => ⟨hscan, hjoin⟩
  rcases hshape₁ with ⟨rfl, rfl⟩ | ⟨p, x, rfl, rfl⟩
  · by_cases hagg : isAggregated columns groupBy = true
    · have hplain' := hplain hagg
      refine ⟨filtered, hover (hwraps.over .refl) hplain'.2.1 hplain'.2.2, ?_⟩
      have hfilter : scanFilter columns none groupBy having = none := by
        unfold scanFilter
        rw [if_pos hagg]
        rfl
      rw [hfilter]
      exact htree.bareBase
    · obtain rfl := hsame (by simpa using hagg)
      have hfilter : scanFilter columns none groupBy having = having := by
        unfold scanFilter
        rw [if_neg hagg]
        rfl
      rw [hfilter]
      rcases hshape₃ with ⟨rfl, rfl⟩ | ⟨p, x, rfl, rfl⟩
      · exact ⟨_, .refl, htree.bareBase⟩
      · exact ⟨_, .refl, htree.filterBase p x⟩
  · refine ⟨_, hover (hwraps.over .refl) ?_ ?_, htree.filterBase p x⟩
    · rcases hwraps with rfl | ⟨info, rfl, hplain', -⟩
      · exact fun h => nomatch h
      · exact hplain'.2.1
    · rcases hwraps with rfl | ⟨info, rfl, hplain', -⟩
      · rfl
      · exact hplain'.2.2

/-- The select list, ORDER BY, DISTINCT and LIMIT. -/
theorem planStages_spec {base current projected sorted distinctNode node : PlanNode}
    (hnum : Numeric current.info.estimatedRows) (hover : Over base current)
    {indexable : Prop} (hbase : PlanBase catalog tables indexable base)
    (hproject : planProject columns current = .ok projected)
    (hsort : planSort orderBy projected = .ok sorted)
    (hdistinct : planDistinct distinct sorted = .ok distinctNode)
    (hlimit : planLimit limit offset distinctNode = .ok node) :
    QueryPlan catalog (limitRows limit (distinctRows distinct current.info.estimatedRows)) tables
        indexable node ∧
      (orderBy.getD [] ≠ [] → HasBitLength current.info.estimatedRows) := by
  obtain ⟨hrows₁, info, rfl, hplain, hname⟩ := planProject_spec hproject
  obtain ⟨hrows₂, hwraps₂, hlength⟩ := planSort_spec hsort
  have hnum₂ : Numeric sorted.info.estimatedRows := by
    rw [hrows₂, hrows₁]
    exact hnum
  obtain ⟨hrows₃, hwraps₃⟩ := planDistinct_spec hnum₂ hdistinct
  obtain ⟨hrows₄, hwraps₄⟩ := planLimit_spec hlimit
  have hover' : Over base node := hwraps₄.over (hwraps₃.over (hwraps₂.over
    (.wrap hover hname hplain.2.1 fun htype => absurd htype hplain.1)))
  have hroot₂ := hwraps₂.plain hplain hname
  have hroot₃ := hwraps₃.plain hroot₂.1 hroot₂.2
  have hroot := hwraps₄.plain hroot₃.1 hroot₃.2
  rw [hrows₁] at hlength hrows₂
  refine ⟨?_, hlength⟩
  constructor
  case estimate => rw [hrows₄, hrows₃, hrows₂]
  case numeric => exact numeric_limitRows _ (numeric_distinctRows _ hnum)
  case names => rw [hover'.planTables, hbase.names]
  case plain => exact hroot.1
  case unnamed => exact hroot.2
  case unmoved => exact hover'.selectable.mpr hbase.unmoved
  case selectable =>
    intro node' h
    obtain ⟨base', hbase', hiff⟩ := hover'.pushdown h
    exact hiff.trans (hbase.selectable hbase')

end Stages

theorem numeric_pairRows (left right : Value) : Numeric (pairRows left right) := by
  unfold pairRows
  split <;> trivial

theorem planJoin_spec {joinType : JoinType} {condition : Option Expr} {a b tree : PlanNode}
    (ha : Numeric a.info.estimatedRows) (hb : Numeric b.info.estimatedRows)
    (h : planJoin joinType condition a b = .ok tree) : ∃ info, tree = .mk info [a, b] ∧
      (info.type = .nestedLoopJoin ∨ info.type = .hashJoin) ∧ info.tableName = none ∧
      info.estimatedRows = share (pairRows a.info.estimatedRows b.info.estimatedRows) (1 / 10) := by
  obtain ⟨pairs, hpairs, h⟩ := bind_eq_ok h
  obtain rfl := mul_eq_pairRows ha hb hpairs
  obtain ⟨few, -, h⟩ := bind_eq_ok h
  obtain ⟨cost, -, h⟩ := bind_eq_ok h
  obtain ⟨rows, hrows, h⟩ := bind_eq_ok h
  obtain rfl := scaled_eq_share (numeric_pairRows _ _) hrows
  refine ⟨_, (Except.ok.inj h).symm, ?_, rfl, rfl⟩
  cases few
  · exact .inr rfl
  · exact .inl rfl

mutual

theorem planTableRef_spec : ∀ (ref : TableRef) {tree : PlanNode},
    planTableRef catalog ref = .ok tree →
      TablesPlan catalog (ref.rows catalog) ref.tables (ref.Indexable catalog) tree ∧
        ref.Countable catalog
  | .simple name aliasName, tree, h => by
    rw [planTableRef] at h
    obtain ⟨x, hx, h⟩ := bind_eq_ok h
    obtain rfl := Except.ok.inj h
    have hcount := operand_int_isOk.mp (isOk_iff.mpr ⟨x, hx⟩)
    have hnum : Numeric (.int (catalog.rowCount name)) := trivial
    obtain rfl := operand_eq_asFloat hnum hx
    have hindexable : (TableRef.simple name aliasName).Indexable catalog = fun filter =>
        ∀ predicate ∈ filter, name ≠ "" →
          (findApplicableIndex catalog name predicate).isSome →
            HasBitLength (share (.float (.ofRat false (catalog.rowCount name))) (33 / 100)) := by
      funext filter
      rw [TableRef.Indexable]
    rw [TableRef.rows, hindexable, TableRef.Countable]
    exact ⟨scanPlan rfl rfl rfl rfl rfl, hcount⟩
  | .join left right joinType condition usingColumns, tree, h => by
    rw [planTableRef] at h
    obtain ⟨a, ha, h⟩ := bind_eq_ok h
    obtain ⟨b, hb, h⟩ := bind_eq_ok h
    obtain ⟨hleft, hcountLeft⟩ := planTableRef_spec left ha
    obtain ⟨hright, hcountRight⟩ := planTableRef_spec right hb
    have hnumLeft : Numeric a.info.estimatedRows := by
      rw [hleft.estimate]
      exact hleft.numeric
    have hnumRight : Numeric b.info.estimatedRows := by
      rw [hright.estimate]
      exact hright.numeric
    obtain ⟨info, rfl, htype, hname, hrows⟩ := planJoin_spec hnumLeft hnumRight h
    have hindexable : (TableRef.join left right joinType condition usingColumns).Indexable catalog =
        fun filter => (∃ predicate ∈ filter, MovesTo predicate (left.tables ++ right.tables)) ∨
          left.Indexable catalog none ∧ right.Indexable catalog none := by
      funext filter
      rw [TableRef.Indexable]
    rw [TableRef.rows, TableRef.tables, hindexable, TableRef.Countable]
    rw [hleft.estimate, hright.estimate] at hrows
    exact ⟨joinPlan hleft hright htype hname hrows (numeric_share _ _), hcountLeft, hcountRight⟩
  | .subquery subquery aliasName, tree, h => by
    rw [planTableRef] at h
    obtain ⟨⟨info, children⟩, hnode, h⟩ := bind_eq_ok h
    obtain rfl := Except.ok.inj h
    obtain ⟨hquery, hcount⟩ := planSelect_spec subquery hnode
    have hindexable : (TableRef.subquery subquery aliasName).Indexable catalog =
        fun _ => subquery.Indexable catalog := by
      funext filter
      rw [TableRef.Indexable]
    rw [TableRef.rows, TableRef.tables, hindexable, TableRef.Countable]
    exact ⟨hquery.subquery rfl rfl rfl, hcount⟩

theorem planSelect_spec : ∀ (stmt : SelectStatement) {node : PlanNode},
    planSelect catalog stmt = .ok node →
      QueryPlan catalog (stmt.rows catalog) stmt.tables (stmt.Indexable catalog) node ∧
        stmt.Countable catalog
  | .mk columns fromClause whereClause groupBy having orderBy limit offset distinct, node, h => by
    rw [planSelect] at h
    obtain ⟨tree, htree, h⟩ := bind_eq_ok h
    obtain ⟨filtered, hwhere, h⟩ := bind_eq_ok h
    obtain ⟨aggregated, haggregate, h⟩ := bind_eq_ok h
    obtain ⟨current, hhaving, h⟩ := bind_eq_ok h
    obtain ⟨projected, hproject, h⟩ := bind_eq_ok h
    obtain ⟨sorted, hsort, h⟩ := bind_eq_ok h
    obtain ⟨distinctNode, hdistinct, hlimit⟩ := bind_eq_ok h
    obtain ⟨hfrom, hcount⟩ := planFrom_spec fromClause htree
    obtain ⟨hrows, base, hover, hbase⟩ := planFilters_spec hfrom hwhere haggregate hhaving
    have hnum : Numeric current.info.estimatedRows := by
      rw [hrows]
      apply numeric_filterRows
      apply numeric_aggregateRows
      exact numeric_filterRows _ _ hfrom.numeric
    obtain ⟨hquery, hsorted⟩ :=
      planStages_spec hnum hover hbase hproject hsort hdistinct hlimit
    rw [hrows] at hquery hsorted
    rw [SelectStatement.rows, SelectStatement.tables, SelectStatement.Indexable,
      SelectStatement.Countable]
    exact ⟨hquery, hcount, hsorted⟩

theorem planFrom_spec : ∀ (fromClause : Option TableRef) {tree : PlanNode},
    planFrom catalog fromClause = .ok tree →
      TablesPlan catalog (fromRows catalog fromClause) (fromTables fromClause)
          (FromIndexable catalog fromClause) tree ∧
        FromCountable catalog fromClause
  | none, tree, h => by
    rw [planFrom] at h
    obtain rfl := Except.ok.inj h
    have hindexable : FromIndexable catalog none = fun _ => True := by
      funext filter
      rw [FromIndexable]
    rw [fromRows, fromTables, hindexable, FromCountable]
    exact ⟨valuesPlan, trivial⟩
  | some ref, tree, h => by
    rw [planFrom] at h
    have hindexable : FromIndexable catalog (some ref) = ref.Indexable catalog := by
      funext filter
      rw [FromIndexable]
    rw [fromRows, fromTables, hindexable, FromCountable]
    exact planTableRef_spec ref h

end

/-! ## Estimates within bounds -/

/-- A float, or an int up to a bound. -/
def Within (bound : ℤ) (rows : Value) : Prop :=
  (∃ x, rows = .float x) ∨ ∃ n, rows = .int n ∧ |n| ≤ bound

theorem Within.mono {bound bound' : ℤ} {rows : Value} (h : Within bound rows)
    (hle : bound ≤ bound') : Within bound' rows :=
  h.imp_right fun ⟨n, hn, hbound⟩ => ⟨n, hn, hbound.trans hle⟩

theorem Within.operand {rows : Value} (h : Within (2 ^ 1000) rows) :
    ∃ x, rows.operand = .ok x := by
  rcases h with ⟨x, rfl⟩ | ⟨n, rfl, hn⟩
  · exact ⟨x, rfl⟩
  · exact isOk_iff.mp (operand_int_isOk.mpr (PyFloat.ofInt_isSome hn))

theorem Within.scalable {rows : Value} (h : Within (2 ^ 1000) rows) : Scalable rows := by
  intro factor
  obtain ⟨x, hx⟩ := h.operand
  have harith : scaled rows factor = (do
      let x ← rows.operand
      return .float (x.mul (.ofRat false factor))) := by
    rcases h with ⟨y, rfl⟩ | ⟨n, rfl, -⟩ <;> rfl
  rw [harith, hx]
  exact ⟨_, rfl⟩

theorem small_le_large : (2 : ℤ) ^ 500 ≤ 2 ^ 1000 := pow_le_pow_right₀ one_le_two (by decide)

theorem arith_within {left right : Value} {bound : ℤ} {onInts : ℤ → ℤ → ℤ}
    {onFloats : PyFloat → PyFloat → PyFloat} (hleft : Within (2 ^ 500) left)
    (hright : Within (2 ^ 500) right)
    (hbound : ∀ m n, |m| ≤ 2 ^ 500 → |n| ≤ 2 ^ 500 → |onInts m n| ≤ bound) :
    ∃ r, Value.arith (fun m n => .ok (.int (onInts m n))) onFloats left right = .ok r ∧
      Within bound r := by
  obtain ⟨x, hx⟩ := (hleft.mono small_le_large).operand
  obtain ⟨y, hy⟩ := (hright.mono small_le_large).operand
  have hfloats : ∀ r, r = (do
      let x ← left.operand
      let y ← right.operand
      return .float (onFloats x y) : Except PyError Value) →
        ∃ r', r = .ok r' ∧ Within bound r' := by
    intro r hr
    rw [hx, hy] at hr
    exact ⟨_, hr, .inl ⟨_, rfl⟩⟩
  rcases hleft with ⟨x, rfl⟩ | ⟨m, rfl, hm⟩
  · exact hfloats _ rfl
  · rcases hright with ⟨y, rfl⟩ | ⟨n, rfl, hn⟩
    · exact hfloats _ rfl
    · exact ⟨_, rfl, .inr ⟨_, rfl, hbound m n hm hn⟩⟩

theorem mul_within {left right : Value} (hleft : Within (2 ^ 500) left)
    (hright : Within (2 ^ 500) right) :
    ∃ r, left.mul right = .ok r ∧ Within (2 ^ 1000) r := by
  have harith : left.mul right =
      Value.arith (fun m n => .ok (.int (m * n))) PyFloat.mul left right := by
    rcases hleft with ⟨x, rfl⟩ | ⟨m, rfl, -⟩ <;> rcases hright with ⟨y, rfl⟩ | ⟨n, rfl, -⟩ <;> rfl
  rw [harith]
  refine arith_within hleft hright fun m n hm hn => ?_
  calc |m * n| = |m| * |n| := abs_mul m n
    _ ≤ 2 ^ 500 * 2 ^ 500 := by gcongr
    _ = 2 ^ 1000 := by rw [← pow_add]

theorem add_within {left right : Value} (hleft : Within (2 ^ 500) left)
    (hright : Within (2 ^ 500) right) :
    ∃ r, left.add right = .ok r ∧ Within (2 ^ 1000) r := by
  have harith : left.add right =
      Value.arith (fun m n => .ok (.int (m + n))) PyFloat.add left right := by
    rcases hleft with ⟨x, rfl⟩ | ⟨m, rfl, -⟩ <;> rcases hright with ⟨y, rfl⟩ | ⟨n, rfl, -⟩ <;> rfl
  rw [harith]
  refine arith_within hleft hright fun m n hm hn => ?_
  calc |m + n| ≤ |m| + |n| := abs_add_le m n
    _ ≤ 2 ^ 500 + 2 ^ 500 := by gcongr
    _ = 2 ^ 501 := by rw [← two_mul, ← pow_succ']
    _ ≤ 2 ^ 1000 := pow_le_pow_right₀ one_le_two (by decide)

theorem bitLength_within {rows : Value} (h : Within (2 ^ 500) rows) (hlength : HasBitLength rows) :
    ∃ bits, bitLength (atLeastOne rows) = .ok bits ∧ bits ≤ 501 := by
  obtain ⟨bits, hbits⟩ := isOk_iff.mp (bitLength_isOk.mpr hlength)
  refine ⟨bits, hbits, ?_⟩
  have hint : ∃ n, atLeastOne rows = .int n ∧ |n| ≤ 2 ^ 500 := by
    unfold atLeastOne at hbits ⊢
    split at hbits
    · next hmore =>
      rcases h with ⟨x, rfl⟩ | ⟨n, rfl, hn⟩
      · cases hbits
      · exact ⟨n, rfl, hn⟩
    · exact ⟨1, rfl, one_le_pow₀ one_le_two⟩
  obtain ⟨n, hn, hle⟩ := hint
  rw [hn] at hbits
  obtain rfl := Except.ok.inj hbits
  split
  · exact Nat.zero_le _
  · next hne =>
    have hlog : Nat.log 2 n.natAbs < 501 := by
      apply Nat.log_lt_of_lt_pow (Int.natAbs_ne_zero.mpr hne)
      zify
      exact hle.trans_lt (pow_lt_pow_right₀ one_lt_two (by decide))
    exact hlog

/-! ## Stages that raise nothing -/

/-- A plan that the next stage takes. -/
structure Ready (node : PlanNode) : Prop where
  scales : Scales node
  rows : Within (2 ^ 500) node.info.estimatedRows

theorem ready_mk {info : PlanInfo} {children : List PlanNode} (hchildren : ScalesAll children)
    (hrows : Within (2 ^ 500) info.estimatedRows) : Ready (.mk info children) where
  scales := by
    rw [Scales]
    exact ⟨(hrows.mono small_le_large).scalable, hchildren⟩
  rows := hrows

theorem Ready.scalesAll (h : Ready current) : ScalesAll [current] := by
  rw [ScalesAll, ScalesAll]
  exact ⟨h.scales, trivial⟩

theorem Ready.costPlus (h : Ready current) (cost : PyFloat) (factor : ℚ) :
    ∃ x, costPlus cost current.info.estimatedRows factor = .ok x :=
  costPlus_of_scalable h.scales.scalable cost factor

theorem above_ready (h : Ready current) (info : PlanInfo) (factor cost : ℚ) :
    ∃ node, above info factor cost current = .ok node ∧ Ready node := by
  obtain ⟨rows, hrows⟩ := h.scales.scalable factor
  obtain ⟨x, hx⟩ := h.costPlus current.info.estimatedCost cost
  rw [above, hrows, ok_bind, hx, ok_bind]
  exact ⟨_, rfl, ready_mk h.scalesAll (.inl ⟨rows, rfl⟩)⟩

theorem planFilter_ready (h : Ready current) (predicate : Option Expr) (factor : ℚ) :
    ∃ node, planFilter predicate factor current = .ok node ∧ Ready node := by
  cases predicate with
  | none => exact ⟨current, rfl, h⟩
  | some p => exact above_ready h _ factor (1 / 10)

theorem planAggregate_ready (h : Ready current) (columns : List SelectItem)
    (groupBy : Option (List Expr)) :
    ∃ node, planAggregate columns groupBy current = .ok node ∧ Ready node := by
  unfold planAggregate
  split
  · obtain ⟨rows, hrows⟩ := h.scales.scalable (1 / 10)
    obtain ⟨x, hx⟩ := h.costPlus current.info.estimatedCost (1 / 2)
    rw [hrows, ok_bind, hx, ok_bind]
    refine ⟨_, rfl, ready_mk h.scalesAll ?_⟩
    show Within (2 ^ 500) (atLeastOne (.float rows))
    unfold atLeastOne
    split
    · exact .inl ⟨rows, rfl⟩
    · exact .inr ⟨1, rfl, one_le_pow₀ one_le_two⟩
  · exact ⟨current, rfl, h⟩

theorem planProject_ready (h : Ready current) (columns : List SelectItem) :
    ∃ node, planProject columns current = .ok node ∧ Ready node := by
  obtain ⟨x, hx⟩ := h.costPlus current.info.estimatedCost (1 / 100)
  rw [planProject, hx, ok_bind]
  exact ⟨_, rfl, ready_mk h.scalesAll h.rows⟩

theorem planSort_ready (h : Ready current) (orderBy : Option (List OrderByItem))
    (hlength : orderBy.getD [] ≠ [] → HasBitLength current.info.estimatedRows) :
    ∃ node, planSort orderBy current = .ok node ∧ Ready node := by
  unfold planSort
  split
  · exact ⟨current, rfl, h⟩
  · exact ⟨current, rfl, h⟩
  · next items hne =>
    have hitems : items ≠ [] := fun hnil => hne (by rw [hnil])
    obtain ⟨bits, hbits, hle⟩ := bitLength_within h.rows (hlength hitems)
    have hbound : Within (2 ^ 500) (.int bits) := by
      refine .inr ⟨bits, rfl, ?_⟩
      rw [abs_of_nonneg (Int.natCast_nonneg bits)]
      calc (bits : ℤ) ≤ 501 := by exact_mod_cast hle
        _ ≤ 2 ^ 9 := by decide
        _ ≤ 2 ^ 500 := pow_le_pow_right₀ one_le_two (by decide)
    obtain ⟨pairs, hpairs, hwithin⟩ := mul_within h.rows hbound
    obtain ⟨x, hx⟩ := costPlus_of_scalable hwithin.scalable current.info.estimatedCost (1 / 2)
    dsimp only
    rw [hbits, ok_bind, hpairs, ok_bind, hx, ok_bind]
    exact ⟨_, rfl, ready_mk h.scalesAll h.rows⟩

theorem planDistinct_ready (h : Ready current) (distinct : Bool) :
    ∃ node, planDistinct distinct current = .ok node ∧ Ready node := by
  unfold planDistinct
  split
  · exact above_ready h _ _ _
  · exact ⟨current, rfl, h⟩

theorem compare_within {bound : ℤ} {rows : Value} (h : Within bound rows) (n : ℤ) :
    ∃ less, rows.compare .lt (.int n) = .ok less := by
  rcases h with ⟨x, rfl⟩ | ⟨m, rfl, -⟩ <;> exact ⟨_, rfl⟩

theorem planLimit_ready (h : Ready current) (limit offset : Option ℤ)
    (hlimit : ∀ n ∈ limit, |n| ≤ 2 ^ 500) :
    ∃ node, planLimit limit offset current = .ok node ∧ Ready node := by
  cases limit with
  | none => exact ⟨current, rfl, h⟩
  | some n =>
    obtain ⟨less, hless⟩ := compare_within h.rows n
    rw [planLimit, hless, ok_bind]
    refine ⟨_, rfl, ready_mk h.scalesAll ?_⟩
    show Within (2 ^ 500) (if less then current.info.estimatedRows else .int n)
    split
    · exact h.rows
    · exact .inr ⟨n, rfl, hlimit n rfl⟩

theorem planJoin_ready {a b : PlanNode} (ha : Ready a) (hb : Ready b) (joinType : JoinType)
    (condition : Option Expr) :
    ∃ tree, planJoin joinType condition a b = .ok tree ∧ Ready tree := by
  obtain ⟨pairs, hpairs, hpairsWithin⟩ := mul_within ha.rows hb.rows
  obtain ⟨few, hfew⟩ := compare_within hpairsWithin 100000
  obtain ⟨sum, hsum, hsumWithin⟩ := add_within ha.rows hb.rows
  obtain ⟨rows, hrows⟩ := hpairsWithin.scalable (1 / 10)
  have hcost : ∃ cost, joinCost few a.info b.info pairs = .ok cost := by
    unfold joinCost
    split
    · exact costPlus_of_scalable hpairsWithin.scalable _ _
    · rw [hsum, ok_bind]
      exact costPlus_of_scalable hsumWithin.scalable _ _
  obtain ⟨cost, hcost⟩ := hcost
  rw [planJoin, hpairs, ok_bind, hfew, ok_bind]
  dsimp only
  rw [hcost, ok_bind, hrows, ok_bind]
  refine ⟨_, rfl, ready_mk ?_ (.inl ⟨rows, rfl⟩)⟩
  rw [ScalesAll, ScalesAll, ScalesAll]
  exact ⟨ha.scales, hb.scales, trivial⟩

mutual

theorem planTableRef_ready : ∀ (ref : TableRef), ref.Countable catalog → ref.LimitsFit →
    ∃ tree, planTableRef catalog ref = .ok tree ∧ Ready tree
  | .simple name aliasName, hcount, _ => by
    rw [TableRef.Countable] at hcount
    obtain ⟨x, hx⟩ := isOk_iff.mp (operand_int_isOk.mpr hcount)
    unfold Catalog.rowCount at hx
    rw [planTableRef, hx, ok_bind]
    exact ⟨_, rfl, ready_mk trivial (.inl ⟨x, rfl⟩)⟩
  | .join left right joinType condition usingColumns, hcount, hlimits => by
    rw [TableRef.Countable] at hcount
    rw [TableRef.LimitsFit] at hlimits
    obtain ⟨a, ha, hreadya⟩ := planTableRef_ready left hcount.1 hlimits.1
    obtain ⟨b, hb, hreadyb⟩ := planTableRef_ready right hcount.2 hlimits.2
    rw [planTableRef, ha, ok_bind, hb, ok_bind]
    exact planJoin_ready hreadya hreadyb joinType condition
  | .subquery subquery aliasName, hcount, hlimits => by
    rw [TableRef.Countable] at hcount
    rw [TableRef.LimitsFit] at hlimits
    obtain ⟨⟨info, children⟩, hnode, hready⟩ := planSelect_ready subquery hcount hlimits
    rw [planTableRef, hnode, ok_bind]
    have hscales := hready.scales
    rw [Scales] at hscales
    exact ⟨_, rfl, ready_mk hscales.2 hready.rows⟩

theorem planSelect_ready : ∀ (stmt : SelectStatement), stmt.Countable catalog → stmt.LimitsFit →
    ∃ node, planSelect catalog stmt = .ok node ∧ Ready node
  | .mk columns fromClause whereClause groupBy having orderBy limit offset distinct, hcount,
      hlimits => by
    rw [SelectStatement.Countable] at hcount
    rw [SelectStatement.LimitsFit] at hlimits
    obtain ⟨tree, htree, hready⟩ := planFrom_ready fromClause hcount.1 hlimits.1
    obtain ⟨filtered, hwhere, hready₁⟩ := planFilter_ready hready whereClause (33 / 100)
    obtain ⟨aggregated, haggregate, hready₂⟩ := planAggregate_ready hready₁ columns groupBy
    obtain ⟨current, hhaving, hready₃⟩ := planFilter_ready hready₂ having (5 / 10)
    obtain ⟨projected, hproject, hready₄⟩ := planProject_ready hready₃ columns
    obtain ⟨hfrom, -⟩ := planFrom_spec fromClause htree
    obtain ⟨hrows, -⟩ := planFilters_spec hfrom hwhere haggregate hhaving
    have hlength : orderBy.getD [] ≠ [] → HasBitLength projected.info.estimatedRows := by
      rw [(planProject_spec hproject).1, hrows]
      exact hcount.2
    obtain ⟨sorted, hsort, hready₅⟩ := planSort_ready hready₄ orderBy hlength
    obtain ⟨distinctNode, hdistinct, hready₆⟩ := planDistinct_ready hready₅ distinct
    rw [planSelect, htree, ok_bind, hwhere, ok_bind, haggregate, ok_bind, hhaving, ok_bind,
      hproject, ok_bind, hsort, ok_bind, hdistinct, ok_bind]
    exact planLimit_ready hready₆ limit offset hlimits.2

theorem planFrom_ready : ∀ (fromClause : Option TableRef), FromCountable catalog fromClause →
    FromLimitsFit fromClause → ∃ tree, planFrom catalog fromClause = .ok tree ∧ Ready tree
  | none, _, _ => by
    rw [planFrom]
    exact ⟨_, rfl, ready_mk trivial (.inr ⟨1, rfl, one_le_pow₀ one_le_two⟩)⟩
  | some ref, hcount, hlimits => by
    rw [FromCountable] at hcount
    rw [FromLimitsFit] at hlimits
    rw [planFrom]
    exact planTableRef_ready ref hcount hlimits

end

/-! ## Statements -/

/-- A plan that was made is optimized exactly if its index scans have a bit length. -/
theorem optimize_isOk {rows : Value} {tables : List String} {indexable : Prop}
    (hnode : QueryPlan catalog rows tables indexable node) :
    ((optimize catalog node).isOk = true → indexable) ∧
      (Scales node → indexable → (optimize catalog node).isOk = true) := by
  unfold optimize
  constructor
  · intro h
    obtain ⟨pushed, hpushed, h⟩ := bind_isOk.mp h
    obtain ⟨selected, hselected, -⟩ := bind_isOk.mp h
    exact (hnode.selectable hpushed).mp
      ((selectIndexes_isOk catalog pushed).mp (isOk_iff.mpr ⟨selected, hselected⟩))
  · intro hscales hindexable
    obtain ⟨pushed, hpushed, hpushedScales⟩ := pushdownPredicates_scales hscales
    obtain ⟨selected, hselected⟩ := isOk_iff.mp
      ((selectIndexes_isOk catalog pushed).mpr ((hnode.selectable hpushed).mpr hindexable))
    obtain ⟨estimated, hestimated⟩ :=
      estimateCosts_scales (selectIndexes_scales hpushedScales hselected)
    rw [hpushed, ok_bind, hselected, ok_bind, hestimated]
    rfl

/-- A statement that is planned can be planned, and one that can be planned is planned if its LIMITs
fit. -/
theorem plan_isOk (catalog : Catalog) (stmt : Statement) :
    ((plan catalog stmt).isOk = true → stmt.Plannable catalog) ∧
      (stmt.LimitsFit → stmt.Plannable catalog → (plan catalog stmt).isOk = true) := by
  induction stmt with
  | select stmt =>
    rw [plan]
    constructor
    · intro h
      obtain ⟨node, hnode, h⟩ := bind_isOk.mp h
      obtain ⟨hplan, hcount⟩ := planSelect_spec stmt hnode
      exact ⟨hcount, (optimize_isOk hplan).1 h⟩
    · intro hlimits ⟨hcount, hindexable⟩
      obtain ⟨node, hnode, hready⟩ := planSelect_ready stmt hcount hlimits
      rw [hnode, ok_bind]
      exact (optimize_isOk (planSelect_spec stmt hnode).1).2 hready.scales hindexable
  | insert stmt =>
    rw [plan, planInsert]
    constructor
    · intro h
      obtain ⟨x, hx, -⟩ := bind_isOk.mp h
      exact operand_int_isOk.mp (isOk_iff.mpr ⟨x, hx⟩)
    · intro _ hlength
      obtain ⟨x, hx⟩ := isOk_iff.mp (operand_int_isOk.mpr hlength)
      exact bind_isOk.mpr ⟨x, hx, rfl⟩
  | explain stmt ih =>
    rw [plan]
    exact ih
  | transaction className =>
    rw [plan]
    constructor
    · intro h
      cases h
    · intro _ h
      exact h.elim
  | _ => exact ⟨fun _ => trivial, fun _ _ => rfl⟩

/-- A table of 1000 rows. -/
def thousandRows : Catalog where
  tables := Dict.empty.set "t" { name := "t", columns := [], rowCountEstimate := 1000 }
  indexes := .empty

/-- `SELECT * FROM t ORDER BY a` -/
def sortedQuery : SelectStatement :=
  .mk star (some (.simple "t" none)) none none none (some [⟨.columnRef none "a", false⟩]) none none
    false

theorem sortedQuery_raises : ¬∀ (catalog : Catalog) (stmt : SelectStatement),
    (plan catalog (.select stmt)).isOk = true := by
  intro h
  have hraises : (plan thousandRows (.select sortedQuery)).isOk = false := by decide +kernel
  rw [h thousandRows sortedQuery] at hraises
  cases hraises

end PySQL.Query
