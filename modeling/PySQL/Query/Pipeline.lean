import PySQL.Query.Vectorized

/-!
# The whole pipeline

Scan, filter and projection of the vectorized engine, for a comparison of a column with a literal of
its type: batches, vectors and selections leave no trace in the result.
-/

namespace PySQL.Query

open Lib

variable {py : Py} {schema selectCols : List String} {rows : List Row} {batch : RecordBatch}

/-! ## The projection -/

/-- The selected columns of a row, in the order in which they are named. -/
def selectRow (schema selectCols : List String) (row : Row) : Row :=
  selectCols.map fun column => (row[schema.idxOf column]?).getD .null

theorem idxOf?_of_mem {column : String} (h : column ∈ schema) :
    schema.idxOf? column = some (schema.idxOf column) := by
  induction schema with
  | nil => cases h
  | cons x xs ih =>
    rw [List.idxOf?_cons, List.idxOf_cons]
    by_cases hx : x = column
    · simp [hx]
    · have hxs : column ∈ xs := (List.mem_cons.mp h).resolve_left (Ne.symm hx)
      have hbeq : (x == column) = false := beq_eq_false_iff_ne.mpr hx
      simp [hbeq, ih hxs]

theorem column_selectRow {j : ℕ} {name : String} (h : selectCols[j]? = some name) :
    column j (rows.map (selectRow schema selectCols)) = column (schema.idxOf name) rows := by
  rw [column, column, List.map_map]
  refine List.map_congr_left fun row _ => ?_
  show ((selectRow schema selectCols row)[j]?).getD .null = _
  rw [selectRow, List.getElem?_map, h]
  rfl

theorem filterMap_id_map_some {α : Type} {l : List (Option α)} (h : ∀ x ∈ l, x.isSome) :
    (l.filterMap id).map some = l := by
  induction l with
  | nil => rfl
  | cons x xs ih =>
    rw [List.forall_mem_cons] at h
    obtain ⟨a, rfl⟩ := Option.isSome_iff_exists.mp h.1
    show some a :: (xs.filterMap id).map some = some a :: xs
    rw [ih h.2]

/-- The projection of a batch holds the projected rows. -/
theorem RecordBatch.Holds.project (h : batch.Holds py schema rows) :
    ∃ batch', projectBatch selectCols batch = .ok batch' ∧
      batch'.Holds py (selectCols.filter (· ∈ schema))
        (rows.map (selectRow schema (selectCols.filter (· ∈ schema)))) := by
  have hmem : ∀ column ∈ selectCols.filter (· ∈ schema), column ∈ schema := fun column hcol => by
    simpa using (List.mem_filter.mp hcol).2
  generalize hcols : selectCols.filter (· ∈ schema) = cols at hmem ⊢
  obtain ⟨found, hmap, hlen, hfound⟩ := exists_mapE (f := batch.vector?) (l := cols)
    (P := fun j x => ∃ vec, x = some vec ∧
      vec.Holds py (column j (rows.map (selectRow schema cols)))) (by
      intro j name hj
      obtain ⟨vec, hvec, hholds⟩ := h.vector? (idxOf?_of_mem (hmem name (List.mem_of_getElem? hj)))
      exact ⟨some vec, hvec, vec, rfl, (column_selectRow hj).symm ▸ hholds⟩)
  have hsome : (found.filterMap id).map some = found := by
    refine filterMap_id_map_some fun x hx => ?_
    obtain ⟨j, hj⟩ := List.getElem?_of_mem hx
    obtain ⟨vec, rfl, -⟩ := hfound j x hj
    rfl
  refine ⟨{ schema := cols, vectors := found.filterMap id, numRows := batch.numRows }, ?_, rfl,
    ?_, ?_, fun j vec hvec => ?_⟩
  · rw [projectBatch, h.names, hcols, hmap]
    rfl
  · rw [List.length_map]
    exact h.numRows
  · rw [← hlen, ← hsome]
    simp
  · have hj : found[j]? = some (some vec) := by rw [← hsome, List.getElem?_map, hvec]; rfl
    obtain ⟨vec', hvec', hholds⟩ := hfound j _ hj
    rw [Option.some.inj hvec']
    exact hholds

theorem passesOn_project (child : VectorizedOperator) :
    PassesOn py schema (selectRow schema (selectCols.filter (· ∈ schema))) child
      (vectorizedProject selectCols child) where
  done h := by
    rw [vectorizedProject, h]
    rfl
  error h := by
    rw [vectorizedProject, h]
    rfl
  batch h _ hholds := by
    obtain ⟨batch', hproject, hholds'⟩ : ∃ batch', projectBatch selectCols _ = .ok batch' ∧ _ :=
      hholds.project
    refine ⟨batch', by rw [vectorizedProject, h]; simp only [bind, Except.bind, hproject]; rfl, ?_⟩
    refine hholds'.toRows fun row hrow => ?_
    obtain ⟨old, -, rfl⟩ := List.mem_map.mp hrow
    exact List.length_map _

/-- The whole pipeline is a loop over the rows, for every predicate. -/
theorem executePipeline_select {expr : Expr} (hdistinct : schema.Nodup) (htyped : Typed schema rows)
    (hne : selectCols ≠ []) (hcols : ∀ column ∈ selectCols, column ∈ schema) :
    executePipeline py schema rows (some expr) (some selectCols) =
      (filterE (filterTest schema expr) rows).map (List.map (selectRow schema selectCols)) := by
  have hfilter : selectCols.filter (· ∈ schema) = selectCols :=
    List.filter_eq_self.mpr fun column hcol => decide_eq_true (hcols column hcol)
  have hrows : resultRows (vectorizedProject selectCols (vectorizedFilter py expr
      (vectorizedBatchScan py schema rows) (rows.length + 1))) (rows.length + 1) 0 =
      (filterE (filterTest schema expr) (rows.drop 0)).map
        (List.map (selectRow schema (selectCols.filter (· ∈ schema)))) :=
    resultRows_of_passesOn hdistinct htyped (passesOn_project _) (Nat.lt_succ_self _) (by omega)
  rw [hfilter, List.drop_zero] at hrows
  rw [← hrows]
  obtain ⟨column, cols, rfl⟩ := List.exists_cons_of_ne_nil hne
  rfl

/-! ## Comparisons -/

/-- The operators that the vectorized filter knows between a column and a literal. -/
def BinaryOpType.Compares (op : BinaryOpType) : Prop := op = .gt ∨ op = .eq ∨ op = .lt

/-- A literal of the type of a column: both are integers, or both are texts. -/
def SameType (rows : List Row) (j : ℕ) (value : Value) : Prop :=
  ((∃ n, value = .int n) ∧ ∀ v ∈ column j rows, v = .null ∨ ∃ n, v = .int n) ∨
    ((∃ s, value = .str s) ∧ ∀ v ∈ column j rows, v = .null ∨ ∃ s, v = .str s)

/-- A comparison of two values of one type raises nothing. -/
theorem filterTest_isOk {table : Option String} {name : String} {op : BinaryOpType} {value : Value}
    {row : Row} (hdistinct : schema.Nodup) (hwidth : row.length = schema.length) (hname : name ∈ schema)
    (hop : op.Compares) (hrow : row ∈ rows) (htype : SameType rows (schema.idxOf name) value) :
    (filterTest schema (.binaryOp op (.columnRef table name) (.literal value)) row).isOk = true := by
  have hcell : (row[schema.idxOf name]?).getD .null ∈ column (schema.idxOf name) rows :=
    List.mem_map.mpr ⟨row, hrow, rfl⟩
  have hleft : evalVal (rowDict schema row) (.columnRef table name) =
      some ((row[schema.idxOf name]?).getD .null) :=
    evalVal_column hdistinct (idxOf?_of_mem hname) hwidth
  generalize (row[schema.idxOf name]?).getD .null = v at hcell hleft
  simp only [filterTest, evalScalarExpr, hleft]
  rcases htype with ⟨⟨n, rfl⟩, hints⟩ | ⟨⟨s, rfl⟩, htexts⟩
  · rcases hints v hcell with rfl | ⟨m, rfl⟩
    · rfl
    · rcases hop with rfl | rfl | rfl <;> rfl
  · rcases htexts v hcell with rfl | ⟨t, rfl⟩
    · rfl
    · rcases hop with rfl | rfl | rfl <;> rfl

/-- The pipeline gives the selected columns of the rows on which the comparison is true. -/
theorem executePipeline_comparison (py : Py) {table : Option String} {name : String}
    {op : BinaryOpType} {value : Value} (hdistinct : schema.Nodup) (htyped : Typed schema rows)
    (hop : op.Compares) (hname : name ∈ schema) (htype : SameType rows (schema.idxOf name) value)
    (hne : selectCols ≠ []) (hcols : ∀ column ∈ selectCols, column ∈ schema) :
    executePipeline py schema rows
        (some (.binaryOp op (.columnRef table name) (.literal value))) (some selectCols) =
      .ok ((rows.filter fun row => isTrue (filterTest schema
        (.binaryOp op (.columnRef table name) (.literal value)) row)).map
          (selectRow schema selectCols)) := by
  rw [executePipeline_select hdistinct htyped hne hcols]
  rw [filterE_of_isOk fun row hrow =>
    filterTest_isOk hdistinct (htyped.width row hrow) hname hop hrow htype]
  rfl

theorem executePipeline_comparison_swapped :
    executePipeline .ascii ["a", "b"] [[.int 1, .str "x"], [.null, .null], [.int 3, .null]]
        (some (.binaryOp .lt (.columnRef none "a") (.literal (.int 4)))) (some ["b", "a"]) =
      .ok (([[.int 1, .str "x"], [.null, .null], [.int 3, .null]].filter fun row =>
        isTrue (filterTest ["a", "b"]
          (.binaryOp .lt (.columnRef none "a") (.literal (.int 4))) row)).map
            (selectRow ["a", "b"] ["b", "a"])) := by
  refine executePipeline_comparison .ascii (by decide) ⟨by decide, fun j hj => ?_⟩ (.inr (.inr rfl))
    (by decide) (.inl ⟨⟨4, rfl⟩, ?_⟩) (by decide) (by decide)
  · have hlt : j < 2 := hj
    interval_cases j
    · exact .inl (by simp [column])
    · exact .inr (by simp [column])
  · have hidx : (["a", "b"] : List String).idxOf "a" = 0 := by decide
    rw [hidx]
    simp [column]

end PySQL.Query
