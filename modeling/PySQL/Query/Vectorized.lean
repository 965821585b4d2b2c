import PySQL.Query.Columnar

/-!
# The vectorized engine

A pipeline of a scan, a filter and a projection that passes record batches on.  Its filter has an
evaluator of its own, which knows four operators between columns and literals.
-/

namespace PySQL.Query

open Lib

/-! ## Evaluation -/

/-- `_eval_val`: Python's None, which is none here, for the literal NULL; the value NULL for what
is neither a literal nor a column. -/
def evalVal (row : Dict String Value) : Expr → Option Value
  | .literal .null => none
  | .literal value => some value
  | .columnRef _ column => some ((row.get? column).getD .null)
  | _ => some .null

/-- An ordering of two operands of which each may be None. -/
def compareOperands (op : Value.CompareOp) : Option Value → Option Value → Except PyError Bool
  | some a, some b => a.compare op b
  | _, _ => .error .typeError

/-- `left == right` -/
def equalOperands : Option Value → Option Value → Bool
  | some a, some b => a.eq b
  | none, none => true
  | _, _ => false

def evalScalarExpr (row : Dict String Value) : Expr → Except PyError Bool
  | .binaryOp op leftExpr rightExpr =>
    let left := evalVal row leftExpr
    let right := evalVal row rightExpr
    if left = some .null ∨ right = some .null then .ok false
    else
      match op with
      | .gt => compareOperands .gt left right
      | .eq => .ok (equalOperands left right)
      | .lt => compareOperands .lt left right
      | .and => .ok (left.any Value.truthy && right.any Value.truthy)
      | _ => .ok true
  | _ => .ok true

namespace RecordBatch

/-- `{col: batch.vectors[c].get(i) for c, col in enumerate(batch.schema)}` -/
def rowDict (batch : RecordBatch) (i : ℕ) : Except PyError (Dict String Value) := do
  let values ← mapE (fun c => do
    let vec ← (batch.vectors[c]?).elim (.error .indexError) .ok
    vec.get i) (List.range batch.schema.length)
  return Query.rowDict batch.schema values

/-- `batch.vectors[batch.schema.index(column)]`, none if the schema lacks the column. -/
def vector? (batch : RecordBatch) (column : String) : Except PyError (Option ColumnVector) :=
  match batch.schema.idxOf? column with
  | none => .ok none
  | some c => (batch.vectors[c]?).elim (.error .indexError) fun vec => .ok (some vec)

/-- The fallback: row by row. -/
def evalRows (batch : RecordBatch) (expr : Expr) : Except PyError (List ℕ) :=
  filterE (fun i => do evalScalarExpr (← batch.rowDict i) expr) (List.range batch.numRows)

end RecordBatch

/-- `isinstance(value, int)` -/
def Value.isInt : Value → Bool
  | .bool _ | .int _ => true
  | _ => false

/-- The indices of the rows that a predicate selects.  A column of integers is compared with an
integer at once if the operator is `>` or `=`. -/
def evalVectorPredicate (expr : Expr) (batch : RecordBatch) : Except PyError (List ℕ) :=
  match expr with
  | .binaryOp op (.columnRef _ column) (.literal value) => do
    match ← batch.vector? column with
    | none => batch.evalRows expr
    | some vec =>
      if vec.type = .int64 ∧ value.isInt then
        match op with
        | .gt => vec.vecGt value
        | .eq => filterE (fun i => do return (← vec.get i).eq value) (List.range batch.numRows)
        | _ => batch.evalRows expr
      else batch.evalRows expr
  | _ => batch.evalRows expr

/-! ## Operators -/

/-- The method `next_batch`: the batch, none at the end, and the cursor of the scan afterwards. -/
abbrev VectorizedOperator : Type := ℕ → Except PyError (Option RecordBatch × ℕ)

def vectorizedBatchScan (py : Py) (schema : List String) (rows : List Row) : VectorizedOperator :=
  fun cursor =>
    if rows.length ≤ cursor then .ok (none, cursor)
    else do
      let stop := min (cursor + vectorSize) rows.length
      let batch ← RecordBatch.fromRows py schema ((rows.take stop).drop cursor)
      return (some batch, stop)

/-- A batch of which no row is selected is passed over; `fuel` bounds the batches. -/
def vectorizedFilter (py : Py) (predicate : Expr) (child : VectorizedOperator) :
    ℕ → VectorizedOperator
  | 0, cursor => .ok (none, cursor)
  | fuel + 1, cursor => do
    match ← child cursor with
    | (none, next) => return (none, next)
    | (some batch, next) =>
      if batch.numRows = 0 then vectorizedFilter py predicate child fuel next
      else do
        let selection ← evalVectorPredicate predicate batch
        if selection = [] then vectorizedFilter py predicate child fuel next
        else return (some (← batch.filterBySelection py selection), next)

def projectBatch (selectCols : List String) (batch : RecordBatch) : Except PyError RecordBatch := do
  let schema := selectCols.filter (· ∈ batch.schema)
  let vectors ← mapE batch.vector? schema
  return { schema, vectors := vectors.filterMap id, numRows := batch.numRows }

def vectorizedProject (selectCols : List String) (child : VectorizedOperator) :
    VectorizedOperator := fun cursor => do
  match ← child cursor with
  | (none, next) => return (none, next)
  | (some batch, next) => return (some (← projectBatch selectCols batch), next)

/-- The rows of all batches from the cursor on. -/
def resultRows (source : VectorizedOperator) : ℕ → ℕ → Except PyError (List Row)
  | 0, _ => .ok []
  | fuel + 1, cursor => do
    match ← source cursor with
    | (none, _) => return []
    | (some batch, next) => do
      let rows ← batch.toRows
      return rows ++ (← resultRows source fuel next)

/-- Each batch of the scan has at least one row, so there are no more batches than rows. -/
def executePipeline (py : Py) (schema : List String) (rows : List Row) (predicate : Option Expr)
    (selectCols : Option (List String)) : Except PyError (List Row) :=
  let fuel := rows.length + 1
  let scan := vectorizedBatchScan py schema rows
  let filtered := predicate.elim scan fun predicate => vectorizedFilter py predicate scan fuel
  let source :=
    match selectCols with
    | none | some [] => filtered
    | some cols => vectorizedProject cols filtered
  resultRows source fuel 0

/-! ## The filter works row by row -/

variable {py : Py} {schema : List String} {rows : List Row} {batch : RecordBatch} {expr : Expr}

/-- The test that the filter makes of a row. -/
def filterTest (schema : List String) (expr : Expr) (row : Row) : Except PyError Bool :=
  evalScalarExpr (rowDict schema row) expr

namespace RecordBatch

theorem Holds.vector? {column : String} {j : ℕ} (h : batch.Holds py schema rows)
    (hj : schema.idxOf? column = some j) :
    ∃ vec, batch.vector? column = .ok (some vec) ∧ vec.Holds py (Query.column j rows) := by
  have hlt : j < batch.vectors.length := by
    have := (List.idxOf?_eq_some_iff.mp hj).1
    rw [h.width]
    exact this
  refine ⟨batch.vectors[j], ?_, h.vectors j _ (List.getElem?_eq_getElem hlt)⟩
  rw [RecordBatch.vector?, h.names, hj]
  simp only [List.getElem?_eq_getElem hlt, Option.elim_some]

theorem Holds.vector?_none {column : String} (h : batch.Holds py schema rows)
    (hnone : schema.idxOf? column = none) : batch.vector? column = .ok none := by
  rw [RecordBatch.vector?, h.names, hnone]

theorem Holds.rowDict {i : ℕ} {row : Row} (h : batch.Holds py schema rows)
    (hrow : rows[i]? = some row) (hwidth : row.length = schema.length) :
    batch.rowDict i = .ok (Query.rowDict schema row) := by
  have hvalues : mapE (fun c => do
      let vec ← (batch.vectors[c]?).elim (.error .indexError) .ok
      vec.get i) (List.range batch.schema.length) = .ok row := by
    refine mapE_of_getElem (by simp [h.names, hwidth]) fun k c v hc hv => ?_
    obtain ⟨hk, rfl⟩ := List.getElem?_eq_some_iff.mp hc
    simp only [List.length_range, h.names] at hk
    have hlt : k < batch.vectors.length := h.width ▸ hk
    have hcell : (Query.column k rows)[i]? = some v := by rw [getElem?_column hrow, hv]; rfl
    simp only [List.getElem_range, List.getElem?_eq_getElem hlt, Option.elim_some, bind, Except.bind]
    exact (h.vectors k _ (List.getElem?_eq_getElem hlt)).get hcell
  rw [RecordBatch.rowDict, hvalues, h.names]
  rfl

theorem Holds.evalRows (h : batch.Holds py schema rows) (htyped : Typed schema rows) :
    batch.evalRows expr =
      filterE (fun i => filterTest schema expr ((rows[i]?).getD [])) (List.range rows.length) := by
  rw [RecordBatch.evalRows, h.numRows]
  refine filterE_congr fun i hi => ?_
  have hrow := List.getElem?_eq_getElem (List.mem_range.mp hi)
  rw [h.rowDict hrow (htyped.width _ (List.getElem_mem _)), hrow]
  rfl

end RecordBatch

section Fast

variable {table : Option String} {column : String} {value : Value} {row : Row} {j : ℕ}

/-- The operands of a comparison of a column with an integer. -/
theorem evalVal_column (hdistinct : schema.Nodup) (hj : schema.idxOf? column = some j)
    (hwidth : row.length = schema.length) :
    evalVal (rowDict schema row) (.columnRef table column) = some ((row[j]?).getD .null) := by
  obtain ⟨hlt, hcol, -⟩ := List.idxOf?_eq_some_iff.mp hj
  have hv := List.getElem?_eq_getElem (l := row) (hwidth ▸ hlt)
  have hget : (rowDict schema row).get? column = some row[j] :=
    get?_rowDict hdistinct (by rw [List.getElem?_eq_getElem hlt, hcol]) hv
  rw [evalVal, hget, hv]

theorem evalVal_isInt (dict : Dict String Value) (h : value.isInt = true) :
    evalVal dict (.literal value) = some value ∧ value ≠ .null := by
  cases value with
  | bool b => exact ⟨rfl, nofun⟩
  | int n => exact ⟨rfl, nofun⟩
  | null | float _ | str _ | bytes _ => cases h

theorem filterTest_gt (hdistinct : schema.Nodup) (hj : schema.idxOf? column = some j)
    (hwidth : row.length = schema.length) (hvalue : value.isInt = true) :
    filterTest schema (.binaryOp .gt (.columnRef table column) (.literal value)) row =
      if ((row[j]?).getD .null).isNull then .ok false
      else ((row[j]?).getD .null).compare .gt value := by
  obtain ⟨hliteral, hne⟩ := evalVal_isInt (rowDict schema row) hvalue
  simp only [filterTest, evalScalarExpr, hliteral, evalVal_column hdistinct hj hwidth,
    Option.some.injEq, hne, or_false, Value.isNull_iff, compareOperands]

theorem filterTest_eq (hdistinct : schema.Nodup) (hj : schema.idxOf? column = some j)
    (hwidth : row.length = schema.length) (hvalue : value.isInt = true) :
    filterTest schema (.binaryOp .eq (.columnRef table column) (.literal value)) row =
      .ok (((row[j]?).getD .null).eq value) := by
  obtain ⟨hliteral, hne⟩ := evalVal_isInt (rowDict schema row) hvalue
  simp only [filterTest, evalScalarExpr, hliteral, evalVal_column hdistinct hj hwidth,
    Option.some.injEq, hne, or_false, equalOperands]
  split
  · next hnull =>
    rw [hnull, Value.eq_comm, Value.eq_null]
    cases value <;> first | rfl | cases hvalue
  · rfl

end Fast

/-- The indices that the filter selects of a batch are those of the rows that it keeps. -/
theorem evalVectorPredicate_eq (hdistinct : schema.Nodup) (h : batch.Holds py schema rows)
    (htyped : Typed schema rows) :
    evalVectorPredicate expr batch =
      filterE (fun i => filterTest schema expr ((rows[i]?).getD [])) (List.range rows.length) := by
  unfold evalVectorPredicate
  split
  · next op table column value =>
    cases hj : schema.idxOf? column with
    | none =>
      rw [h.vector?_none hj]
      exact h.evalRows htyped
    | some j =>
      obtain ⟨vec, hvec, hholds⟩ := h.vector? hj
      rw [hvec]
      simp only [bind, Except.bind]
      split
      · next hfast =>
        have hrow : ∀ i < rows.length, rows[i]? = some ((rows[i]?).getD []) ∧
            ((rows[i]?).getD []).length = schema.length := by
          intro i hi
          rw [List.getElem?_eq_getElem hi]
          exact ⟨rfl, htyped.width _ (List.getElem_mem hi)⟩
        cases op with
        | gt =>
          have hlen : vec.length = rows.length := by rw [hholds.length, Query.column, List.length_map]
          simp only [ColumnVector.vecGt, hlen]
          refine filterE_congr fun i hi => ?_
          obtain ⟨hget, hwidth⟩ := hrow i (List.mem_range.mp hi)
          have hcell := RecordBatch.getElem?_column (j := j) hget
          rw [filterTest_gt hdistinct hj hwidth hfast.2, hholds.isNull hcell]
          simp only [bind, Except.bind]
          cases hnull : ((((rows[i]?).getD [])[j]?).getD .null).isNull with
          | true => rfl
          | false => rw [hholds.cell hcell hnull]; rfl
        | eq =>
          rw [h.numRows]
          refine filterE_congr fun i hi => ?_
          obtain ⟨hget, hwidth⟩ := hrow i (List.mem_range.mp hi)
          rw [filterTest_eq hdistinct hj hwidth hfast.2,
            hholds.get (RecordBatch.getElem?_column (j := j) hget)]
          rfl
        | _ => exact h.evalRows htyped
      · exact h.evalRows htyped
  · exact h.evalRows htyped

/-! ## Pulling batches -/

/-- A batch of the scan is the next rows, at least one. -/
theorem vectorizedBatchScan_next (py : Py) {cursor : ℕ} (htyped : Typed schema rows)
    (hcursor : cursor < rows.length) :
    ∃ batch chunk stop, vectorizedBatchScan py schema rows cursor = .ok (some batch, stop) ∧
      cursor < stop ∧ chunk ≠ [] ∧ rows.drop cursor = chunk ++ rows.drop stop ∧
      Typed schema chunk ∧ batch.Holds py schema chunk := by
  have hstop : cursor < min (cursor + vectorSize) rows.length := by
    simp only [vectorSize]
    omega
  have hsplit := (List.drop_take_append_drop rows cursor
    (min (cursor + vectorSize) rows.length - cursor)).symm
  rw [← List.drop_take, Nat.add_sub_cancel' hstop.le] at hsplit
  have hne : (rows.take (min (cursor + vectorSize) rows.length)).drop cursor ≠ [] := by
    intro hnil
    have hlen := congrArg List.length hnil
    simp only [List.length_drop, List.length_take, List.length_nil] at hlen
    omega
  have hchunk : Typed schema ((rows.take (min (cursor + vectorSize) rows.length)).drop cursor) :=
    htyped.subset fun row hrow => List.mem_of_mem_take (List.mem_of_mem_drop hrow)
  obtain ⟨batch, hbatch, hholds⟩ := RecordBatch.fromRows_holds py hchunk hne
  refine ⟨batch, _, _, ?_, hstop, hne, hsplit, hchunk, hholds⟩
  rw [vectorizedBatchScan, if_neg hcursor.not_ge]
  simp only [hbatch, bind, Except.bind]
  rfl

/-- What one call of the filter's `next_batch` gives, against the rows still to come: no batch if
none of them is kept, or the first ones that are. -/
inductive Pulled (py : Py) (schema : List String) (expr : Expr) (rows : List Row) (cursor : ℕ) :
    Except PyError (Option RecordBatch × ℕ) → Prop where
  | done {next : ℕ} (hrest : filterE (filterTest schema expr) (rows.drop cursor) = .ok []) :
    Pulled py schema expr rows cursor (.ok (none, next))
  | error {e : PyError} (hrest : filterE (filterTest schema expr) (rows.drop cursor) = .error e) :
    Pulled py schema expr rows cursor (.error e)
  | batch {batch : RecordBatch} {kept : List Row} {next : ℕ} (hnext : cursor < next)
    (hrest : filterE (filterTest schema expr) (rows.drop cursor) =
      do return kept ++ (← filterE (filterTest schema expr) (rows.drop next)))
    (htyped : Typed schema kept) (hholds : batch.Holds py schema kept) :
    Pulled py schema expr rows cursor (.ok (some batch, next))

/-- Rows that are not kept may be passed over. -/
theorem Pulled.skip {cursor stop : ℕ} {result : Except PyError (Option RecordBatch × ℕ)}
    (h : Pulled py schema expr rows stop result) (hstop : cursor < stop)
    (hskip : filterE (filterTest schema expr) (rows.drop cursor) =
      filterE (filterTest schema expr) (rows.drop stop)) : Pulled py schema expr rows cursor result := by
  cases h with
  | done hrest => exact .done (hskip.trans hrest)
  | error hrest => exact .error (hskip.trans hrest)
  | batch hnext hrest htyped hholds => exact .batch (hstop.trans hnext) (hskip.trans hrest) htyped hholds

/-- The filter passes batches over until one has a row that it keeps. -/
theorem vectorizedFilter_pulled {fuel cursor : ℕ} (hdistinct : schema.Nodup)
    (htyped : Typed schema rows) (hfuel : rows.length < cursor + fuel) :
    Pulled py schema expr rows cursor
      (vectorizedFilter py expr (vectorizedBatchScan py schema rows) fuel cursor) := by
  induction fuel generalizing cursor with
  | zero =>
    refine .done ?_
    rw [List.drop_eq_nil_of_le (by omega)]
    rfl
  | succ fuel ih =>
    rw [vectorizedFilter]
    rcases Nat.lt_or_ge cursor rows.length with hlt | hge
    · obtain ⟨batch, chunk, stop, hscan, hstop, hne, hsplit, hchunk, hholds⟩ :=
        vectorizedBatchScan_next py htyped hlt
      have hrows : batch.numRows ≠ 0 := by
        rw [hholds.numRows]
        exact fun hzero => hne (List.length_eq_zero_iff.mp hzero)
      have hkept := filterE_range (p := filterTest schema expr) chunk []
      have hrest : filterE (filterTest schema expr) (rows.drop cursor) =
          do return (← filterE (filterTest schema expr) chunk) ++
            (← filterE (filterTest schema expr) (rows.drop stop)) := by
        rw [hsplit, filterE_append]
      simp only [hscan, bind, Except.bind, if_neg hrows, evalVectorPredicate_eq hdistinct hholds hchunk]
      cases hselect : filterE (fun i => filterTest schema expr ((chunk[i]?).getD []))
          (List.range chunk.length) with
      | error e =>
        rw [hselect] at hkept
        exact .error (by rw [hrest, hkept]; rfl)
      | ok selection =>
        rw [hselect] at hkept
        simp only
        split
        · next hnil =>
          -- no row of the batch is kept
          subst hnil
          refine (ih (by omega)).skip hstop ?_
          rw [hrest, hkept]
          cases filterE (filterTest schema expr) (rows.drop stop) <;> rfl
        · have hmem : ∀ i ∈ selection, i < chunk.length := fun i hi =>
            List.mem_range.mp (mem_of_filterE hselect hi)
          obtain ⟨batch', hfilter, hholds'⟩ := hholds.filterBySelection hmem
          rw [hfilter]
          refine .batch hstop (by rw [hrest, hkept]; rfl) (hchunk.subset ?_) hholds'
          intro row hrow
          obtain ⟨i, hi, rfl⟩ := List.mem_map.mp hrow
          rw [List.getElem?_eq_getElem (hmem i hi)]
          exact List.getElem_mem _
    · rw [vectorizedBatchScan, if_pos hge]
      refine .done ?_
      rw [List.drop_eq_nil_of_le hge]
      rfl

/-- An operator that passes on what the filter gives, the rows of each batch changed by `f`. -/
structure PassesOn (py : Py) (schema : List String) (f : Row → Row)
    (child source : VectorizedOperator) : Prop where
  done : ∀ {cursor next : ℕ}, child cursor = .ok (none, next) → source cursor = .ok (none, next)
  error : ∀ {cursor : ℕ} {e : PyError}, child cursor = .error e → source cursor = .error e
  batch : ∀ {cursor next : ℕ} {batch : RecordBatch} {kept : List Row},
    child cursor = .ok (some batch, next) → Typed schema kept → batch.Holds py schema kept →
    ∃ batch', source cursor = .ok (some batch', next) ∧ batch'.toRows = .ok (kept.map f)

theorem passesOn_self (child : VectorizedOperator) : PassesOn py schema id child child where
  done h := h
  error h := h
  batch h htyped hholds := ⟨_, h, by rw [hholds.toRows htyped.width, List.map_id]⟩

/-- The rows of all batches are the rows that the filter keeps, each changed by `f`. -/
theorem resultRows_of_passesOn {filterFuel fuel cursor : ℕ} {f : Row → Row}
    {source : VectorizedOperator} (hdistinct : schema.Nodup) (htyped : Typed schema rows)
    (hsource : PassesOn py schema f
      (vectorizedFilter py expr (vectorizedBatchScan py schema rows) filterFuel) source)
    (hfilter : rows.length < filterFuel) (hfuel : rows.length < cursor + fuel) :
    resultRows source fuel cursor =
      (filterE (filterTest schema expr) (rows.drop cursor)).map (List.map f) := by
  induction fuel generalizing cursor with
  | zero =>
    rw [List.drop_eq_nil_of_le (by omega)]
    rfl
  | succ fuel ih =>
    rw [resultRows]
    have hpulled : Pulled py schema expr rows cursor
        (vectorizedFilter py expr (vectorizedBatchScan py schema rows) filterFuel cursor) :=
      vectorizedFilter_pulled hdistinct htyped (by omega)
    cases hresult : vectorizedFilter py expr (vectorizedBatchScan py schema rows) filterFuel cursor with
    | error e =>
      rw [hresult] at hpulled
      rw [hsource.error hresult]
      cases hpulled with
      | error hrest =>
        rw [hrest]
        rfl
    | ok pulled =>
      rw [hresult] at hpulled
      cases hpulled with
      | done hrest =>
        rw [hsource.done hresult, hrest]
        rfl
      | @batch _ _ next hnext hrest hkept hholds =>
        obtain ⟨batch', hbatch, htoRows⟩ := hsource.batch hresult hkept hholds
        have hlater := @ih next (by omega)
        simp only [hbatch, bind, Except.bind, htoRows, hlater, hrest]
        cases filterE (filterTest schema expr) (rows.drop next) with
        | error e => rfl
        | ok later =>
          show Except.ok _ = Except.ok _
          rw [List.map_append]

/-- The pipeline of a scan and a filter is a loop over the rows. -/
theorem executePipeline_eq (hdistinct : schema.Nodup) (htyped : Typed schema rows) :
    executePipeline py schema rows (some expr) none = filterE (filterTest schema expr) rows := by
  have hrows : executePipeline py schema rows (some expr) none =
      (filterE (filterTest schema expr) (rows.drop 0)).map (List.map id) :=
    resultRows_of_passesOn hdistinct htyped (passesOn_self _) (Nat.lt_succ_self _) (by omega)
  rw [hrows, List.drop_zero, List.map_id_fun]
  cases filterE (filterTest schema expr) rows <;> rfl

/-! ## The two evaluators -/

/-- `Executor._eval_predicate` is True of the row. -/
def evalsTrue (py : Py) (schema : List String) (expr : Expr) (row : Row) : Bool :=
  isTrue (evalPredicate py (some expr) (rowDict schema row))

/-- What the executor takes the operand of a comparison for, if it is a column or a literal. -/
def executorVal (py : Py) (row : Dict String Value) : Expr → Value
  | .literal value => value
  | .columnRef table column => columnValue py row table column
  | _ => .null

/-- When the filter is right about a row.

Of a predicate other than `a op b` it keeps every row, and none with a NULL among the operands of
`a op b`; a compound operand counts as NULL, and so does a column under another spelling of its
name.  It knows the operators `>`, `<`, `=` and AND: the values that `>` or `<` compares must be of
an order (None, which the literal NULL is, has none), and a qualified name must not lead the
executor to another value.  Under any other operator it keeps the row. -/
def AgreesOn (py : Py) (schema : List String) (expr : Expr) (row : Row) : Prop :=
  let dict := rowDict schema row
  match expr with
  | .binaryOp op a b =>
    if evalVal dict a = some .null ∨ evalVal dict b = some .null then
      evalsTrue py schema expr row = false
    else
      let left := executorVal py dict a
      let right := executorVal py dict b
      match op with
      | .gt => compareOperands .gt (evalVal dict a) (evalVal dict b) =
          .ok (isTrue (left.compare .gt right))
      | .lt => compareOperands .lt (evalVal dict a) (evalVal dict b) =
          .ok (isTrue (left.compare .lt right))
      | .eq => equalOperands (evalVal dict a) (evalVal dict b) =
          (!left.isNull && !right.isNull && left.eq right)
      | .and => ((evalVal dict a).any Value.truthy && (evalVal dict b).any Value.truthy) =
          (left.truthy && right.truthy)
      | _ => evalsTrue py schema expr row = true
  | _ => evalsTrue py schema expr row = true

/-- An operand that the filter does not take for NULL is a column or a literal. -/
theorem evalExpr_operand {dict : Dict String Value} {e : Expr} (h : evalVal dict e ≠ some .null) :
    evalExpr py dict e = .ok (executorVal py dict e) := by
  cases e with
  | literal value => rw [evalExpr, executorVal]
  | columnRef table column => rw [evalExpr, executorVal]
  | _ => exact absurd rfl h

theorem compare_null {op : Value.CompareOp} {u v : Value} (h : (u.isNull || v.isNull) = true) :
    u.compare op v = .error .typeError := by
  rcases Bool.or_eq_true_iff.mp h with hu | hv
  · rw [Value.isNull_iff.mp hu, Value.compare]
    cases v <;> rfl
  · rw [Value.isNull_iff.mp hv, Value.compare]
    cases u <;> rfl

/-- The executor's orderings are Python's, except that values without an order give NULL. -/
theorem isTrue_evalBinaryOp_compare {op : BinaryOpType} {order : Value.CompareOp} {u v : Value}
    (happly : applyOp py op u v = (u.compare order v).map .bool) (hnull : nullOp op u v = .null) :
    isTrue ((evalBinaryOp py op u v).map Value.truthy) = isTrue (u.compare order v) := by
  rw [evalBinaryOp]
  split
  · next h =>
    rw [hnull, compare_null h]
    rfl
  · rw [happly]
    cases u.compare order v with
    | ok b => rfl
    | error e =>
      simp only [Except.map, orNull]
      cases e.caught <;> rfl

theorem isTrue_evalBinaryOp_eq {u v : Value} :
    isTrue ((evalBinaryOp py .eq u v).map Value.truthy) = (!u.isNull && !v.isNull && u.eq v) := by
  rw [evalBinaryOp]
  cases hu : u.isNull with
  | true => rfl
  | false =>
    cases hv : v.isNull with
    | true => rfl
    | false => rfl

theorem isTrue_evalBinaryOp_and {u v : Value} :
    isTrue ((evalBinaryOp py .and u v).map Value.truthy) = (u.truthy && v.truthy) := by
  rw [evalBinaryOp]
  split
  · next h =>
    have hfalse : (u.truthy && v.truthy) = false := by
      rcases Bool.or_eq_true_iff.mp h with hu | hv
      · rw [Value.isNull_iff.mp hu]
        rfl
      · rw [Value.isNull_iff.mp hv, Bool.and_eq_false_iff]
        exact .inr rfl
    rw [hfalse, nullOp]
    split <;> rfl
  · cases hu : u.truthy <;> simp [applyOp, orNull, hu, Except.map]

theorem ok_eq_iff {x y : Bool} : (.ok x : Except PyError Bool) = .ok y ↔ y = x := by
  rw [Except.ok.injEq, eq_comm]

/-- The filter's verdict on a row is the executor's where they are said to agree, and only there. -/
theorem filterTest_iff {row : Row} :
    filterTest schema expr row = .ok (evalsTrue py schema expr row) ↔ AgreesOn py schema expr row := by
  unfold AgreesOn filterTest evalScalarExpr
  split
  · next op a b =>
    simp only
    split
    · exact ok_eq_iff
    · next hoperands =>
      rw [not_or] at hoperands
      have htrue : evalsTrue py schema (.binaryOp op a b) row =
          isTrue ((evalBinaryOp py op (executorVal py (rowDict schema row) a)
            (executorVal py (rowDict schema row) b)).map Value.truthy) := by
        rw [evalsTrue, evalPredicate, evalExpr, evalExpr_operand hoperands.1,
          evalExpr_operand hoperands.2]
        rfl
      cases op with
      | gt => rw [htrue, isTrue_evalBinaryOp_compare rfl rfl]
      | lt => rw [htrue, isTrue_evalBinaryOp_compare rfl rfl]
      | eq => rw [htrue, isTrue_evalBinaryOp_eq, Except.ok.injEq]
      | and => rw [htrue, isTrue_evalBinaryOp_and, Except.ok.injEq]
      | _ => exact ok_eq_iff
  · exact ok_eq_iff

/-- The vectorized filter gives the rows on which the executor's predicate is True, in their order,
if and only if the two agree on every row. -/
theorem executePipeline_iff (py : Py) (hdistinct : schema.Nodup) (htyped : Typed schema rows)
    (predicate : Expr) :
    executePipeline py schema rows (some predicate) none =
        .ok (rows.filter (evalsTrue py schema predicate)) ↔
      ∀ row ∈ rows, AgreesOn py schema predicate row := by
  rw [executePipeline_eq hdistinct htyped, filterE_eq_filter_iff]
  exact forall₂_congr fun row _ => filterTest_iff

/-- A predicate `a > 2` on integers: the fast path. -/
theorem executePipeline_iff_gt :
    executePipeline .ascii ["a"] [[.int 1], [.null], [.int 3]]
        (some (.binaryOp .gt (.columnRef none "a") (.literal (.int 2)))) none =
      .ok ([[.int 1], [.null], [.int 3]].filter (evalsTrue .ascii ["a"]
        (.binaryOp .gt (.columnRef none "a") (.literal (.int 2))))) := by
  have htyped : Typed ["a"] [[.int 1], [.null], [.int 3]] := by
    refine ⟨by decide, fun j hj => .inl ?_⟩
    obtain rfl : j = 0 := Nat.lt_one_iff.mp hj
    simp [column]
  refine (executePipeline_iff .ascii (by decide) htyped _).mpr fun row hrow => ?_
  -- integers have an order, and the row with NULL is kept by neither
  simp only [List.mem_cons, List.not_mem_nil, or_false] at hrow
  rcases hrow with rfl | rfl | rfl
  · rw [← filterTest_iff]
    decide +kernel
  · rw [← filterTest_iff]
    decide +kernel
  · rw [← filterTest_iff]
    decide +kernel

/-- A predicate `a != 1` is not known to the filter, which keeps the row. -/
theorem executePipeline_neq :
    executePipeline .ascii ["a"] [[.int 1]]
        (some (.binaryOp .neq (.columnRef none "a") (.literal (.int 1)))) none ≠
      .ok ([[.int 1]].filter (evalsTrue .ascii ["a"]
        (.binaryOp .neq (.columnRef none "a") (.literal (.int 1))))) := by
  decide +kernel

end PySQL.Query
