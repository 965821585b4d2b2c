import PySQL.Query.Insert
import PySQL.Storage.RowFraming

/-!
# Numbers of AUTOINCREMENT columns

A table counts in the catalog, and a number that it gives out is larger than every one before it.
What a statement puts into the column itself is not counted.
-/

namespace PySQL.Query

open Lib Storage

set_option linter.unusedSectionVars false

variable {n : ℕ} [NeZero n] {ι α : Type}

/-! ## The counters of the catalog -/

namespace Catalog

/-- The columns of a table and the number that it gave out last. -/
def numbering (c : Catalog) (name : String) : Option (List ColumnInfo × ℤ) :=
  (c.getTable name).map fun info => (info.columns, info.autoIncrementCounter)

/-- An assignment to other fields of a table. -/
theorem numbering_updateTable {c : Catalog} {name : String} {f : TableInfo → TableInfo}
    (hcolumns : ∀ info, (f info).columns = info.columns)
    (hcounter : ∀ info, (f info).autoIncrementCounter = info.autoIncrementCounter) :
    (c.updateTable name f).numbering = c.numbering := by
  funext other
  rw [numbering, numbering, getTable_updateTable]
  split
  · rw [Option.map_map]
    apply Option.map_congr
    intro info _
    show ((f info).columns, (f info).autoIncrementCounter) = _
    rw [hcolumns, hcounter]
  · rfl

theorem numbering_updateFirstPageId (c : Catalog) (name : String) (pageId : ℤ) :
    (c.updateFirstPageId name pageId).numbering = c.numbering :=
  numbering_updateTable (fun _ => rfl) fun _ => rfl

theorem numbering_updateTableStats (c : Catalog) (name : String) (rowCount : ℤ) :
    (c.updateTableStats name rowCount).numbering = c.numbering :=
  numbering_updateTable (fun _ => rfl) fun _ => rfl

/-- The next number of a table is one more than the last. -/
theorem incrementAutoCounter_spec {c c' : Catalog} {name : String} {columns : List ColumnInfo}
    {counter next : ℤ} (hn : c.numbering name = some (columns, counter))
    (h : c.incrementAutoCounter name = .ok (c', next)) :
    next = counter + 1 ∧
      c'.numbering = Function.update c.numbering name (some (columns, counter + 1)) := by
  rw [numbering, Option.map_eq_some_iff] at hn
  obtain ⟨info, hinfo, heq⟩ := hn
  obtain ⟨rfl, rfl⟩ := Prod.mk.inj heq
  unfold incrementAutoCounter at h
  rw [hinfo] at h
  cases h
  refine ⟨rfl, ?_⟩
  funext other
  rw [numbering, getTable_updateTable]
  by_cases hother : other = name
  · subst hother
    rw [if_pos rfl, hinfo, Function.update_self]
    rfl
  · rw [if_neg hother, Function.update_of_ne hother]
    rfl

end Catalog

namespace Executor

/-- No table counts on. -/
def SameNumbering (x x' : Executor n) : Prop := x'.catalog.numbering = x.catalog.numbering

instance : Std.Refl (SameNumbering (n := n)) where
  refl _ := rfl

instance : IsTrans (Executor n) SameNumbering where
  trans _ _ _ h h' := h'.trans h

theorem within_onPool (m : PoolCalls n α) : Effect.Within SameNumbering (onPool m) :=
  fun _ => rfl

theorem within_findTable (name : String) :
    Effect.Within SameNumbering (findTable name : Exec n TableInfo) := by
  intro x
  unfold findTable
  split <;> rfl

theorem within_keepHeap (name : String) (heap : HeapFile) :
    Effect.Within SameNumbering (keepHeap name heap : Exec n Unit) :=
  fun _ => rfl

theorem within_loadHeap (name : String) (schema : TableSchema) (firstPageId : ℤ) :
    Effect.Within SameNumbering (loadHeap name schema firstPageId : Exec n HeapFile) := by
  unfold loadHeap
  split
  · exact within_onPool _
  · refine (within_onPool _).bind fun heap => Effect.Within.bind ?_ fun _ => Effect.within_pure heap
    exact Effect.within_change fun x => Catalog.numbering_updateFirstPageId x.catalog name _

theorem within_getHeapFile (py : Py) (name : String) :
    Effect.Within SameNumbering (getHeapFile py name : Exec n (Option HeapFile)) := by
  refine (Effect.within_read id).bind fun x => ?_
  split
  · exact Effect.within_pure _
  · exact Effect.within_pure _
  · refine (Effect.within_lift _).bind fun schema => ?_
    refine (within_loadHeap name schema _).bind fun heap => ?_
    exact (within_keepHeap name heap).bind fun _ => Effect.within_pure _

theorem within_getOrCreateHeap (py : Py) (name : String) (schema : TableSchema) :
    Effect.Within SameNumbering (getOrCreateHeap py name schema : Exec n HeapFile) := by
  refine (within_getHeapFile py name).bind fun heap => ?_
  cases heap with
  | some heap => exact Effect.within_pure heap
  | none =>
    refine (within_loadHeap name schema (-1)).bind fun heap => ?_
    exact (within_keepHeap name heap).bind fun _ => Effect.within_pure heap

theorem within_onHeap (name : String) (heap : HeapFile) (m : HeapCalls n α) :
    Effect.Within SameNumbering (onHeap name heap m : Exec n α) :=
  fun _ => rfl

/-! ## Filling a row -/

variable {x x₁ x' : Executor n} {name : String} {columns : List ColumnInfo} {c c₁ c' : ℤ}
  {row row' : Row} {j : ℕ} {listed : Bool} {column : ColumnInfo} {before after : Option Value}

/-- One table goes from one counter to another, and every other table is as it was. -/
structure CountsOn (name : String) (columns : List ColumnInfo) (c c' : ℤ)
    (x x' : Executor n) : Prop where
  known : x.catalog.numbering name = some (columns, c)
  counted : x'.catalog.numbering = Function.update x.catalog.numbering name (some (columns, c'))
  le : c ≤ c'

theorem CountsOn.stay (hx : x.catalog.numbering name = some (columns, c))
    (h : SameNumbering x x') : CountsOn name columns c c x x' where
  known := hx
  counted := by rw [← hx, Function.update_eq_self, h]
  le := le_rfl

theorem CountsOn.known' (h : CountsOn name columns c c' x x') :
    x'.catalog.numbering name = some (columns, c') := by
  rw [h.counted, Function.update_self]

theorem CountsOn.trans (h : CountsOn name columns c c₁ x x₁)
    (h' : CountsOn name columns c₁ c' x₁ x') : CountsOn name columns c c' x x' where
  known := h.known
  counted := by rw [h'.counted, h.counted, Function.update_idem]
  le := h.le.trans h'.le

/-- A value that was given, or a number from between two counters. -/
def Filled (c c' : ℤ) (before after : Option Value) : Prop :=
  ∃ v, after = some v ∧ (before = some v ∨ ∃ m, v = .int m ∧ c < m ∧ m ≤ c')

theorem Filled.mono (h : Filled c c' before after) {d d' : ℤ} (hd : d ≤ c) (hd' : c' ≤ d') :
    Filled d d' before after := by
  obtain ⟨v, hafter, hv⟩ := h
  refine ⟨v, hafter, hv.imp_right ?_⟩
  rintro ⟨m, hm, hlt, hle⟩
  exact ⟨m, hm, hd.trans_lt hlt, hle.trans hd'⟩

theorem nextAutoValue_spec {v : Value} (hx : x.catalog.numbering name = some (columns, c))
    (h : nextAutoValue name x = (.ok v, x')) :
    v = .int (c + 1) ∧ CountsOn name columns c (c + 1) x x' := by
  unfold nextAutoValue at h
  cases hnext : x.catalog.incrementAutoCounter name with
  | error e =>
    rw [hnext] at h
    cases h
  | ok result =>
    obtain ⟨catalog, next⟩ := result
    rw [hnext] at h
    cases h
    obtain ⟨rfl, hcounted⟩ := Catalog.incrementAutoCounter_spec hx hnext
    exact ⟨rfl, hx, hcounted, by omega⟩

/-- What filling one column does to a row. -/
structure FillsColumn (j : ℕ) (column : ColumnInfo) (c c' : ℤ) (row row' : Row) : Prop where
  others : ∀ i ≠ j, row'[i]? = row[i]?
  filled : column.has .autoincrement = true → Filled c c' row[j]? row'[j]?
  length_le : row.length ≤ row'.length
  reached : j + 1 ≤ row'.length

/-- The column has its value already. -/
theorem FillsColumn.kept (hj : j < row.length) : FillsColumn j column c c row row where
  others := fun _ _ => rfl
  filled := fun _ => ⟨row[j], List.getElem?_eq_getElem hj, .inl (List.getElem?_eq_getElem hj)⟩
  length_le := le_rfl
  reached := hj

theorem fillListed_spec (hx : x.catalog.numbering name = some (columns, c)) (hj : j < row.length)
    (h : fillListed name j column row x = (.ok row', x')) :
    ∃ c', CountsOn name columns c c' x x' ∧ FillsColumn j column c c' row row' := by
  unfold fillListed at h
  have hnumber (h : (do return row.set j (← nextAutoValue name) : Exec n Row) x = (.ok row', x')) :
      ∃ c', CountsOn name columns c c' x x' ∧ FillsColumn j column c c' row row' := by
    obtain ⟨v, x₁, hv, hrow⟩ := Effect.bind_eq_ok h
    obtain ⟨rfl, hcounts⟩ := nextAutoValue_spec hx hv
    cases hrow
    refine ⟨c + 1, hcounts, ?_, ?_, ?_, ?_⟩
    · intro i hi
      rw [List.getElem?_set_ne (Ne.symm hi)]
    · intro _
      rw [List.getElem?_set_self hj]
      exact ⟨_, rfl, .inr ⟨c + 1, rfl, by omega, le_rfl⟩⟩
    · rw [List.length_set]
    · rwa [List.length_set]
  have hkept (h : (pure row : Exec n Row) x = (.ok row', x')) :
      ∃ c', CountsOn name columns c c' x x' ∧ FillsColumn j column c c' row row' := by
    cases h
    exact ⟨c, .stay hx rfl, .kept hj⟩
  split at h
  · exact hnumber h
  · split at h
    · split at h
      · exact hnumber h
      · exact hkept h
    · exact hkept h

theorem fillPositional_spec (hx : x.catalog.numbering name = some (columns, c))
    (hj : j ≤ row.length) (h : fillPositional name j column row x = (.ok row', x')) :
    ∃ c', CountsOn name columns c c' x x' ∧ FillsColumn j column c c' row row' := by
  unfold fillPositional at h
  split at h
  · next hlt =>
    cases h
    exact ⟨c, .stay hx rfl, .kept hlt⟩
  · next hlt =>
    obtain rfl : j = row.length := by omega
    have hothers (v : Value) : ∀ i ≠ row.length, (row ++ [v])[i]? = row[i]? := by
      intro i hi
      rcases Nat.lt_or_gt_of_ne hi with hlt | hgt
      · rw [List.getElem?_append_left hlt]
      · rw [List.getElem?_eq_none (by simp; omega), List.getElem?_eq_none (by omega)]
    split at h
    · obtain ⟨v, x₁, hv, hrow⟩ := Effect.bind_eq_ok h
      obtain ⟨rfl, hcounts⟩ := nextAutoValue_spec hx hv
      cases hrow
      refine ⟨c + 1, hcounts, hothers _, ?_, by simp, by simp⟩
      intro _
      rw [List.getElem?_concat_length]
      exact ⟨_, rfl, .inr ⟨c + 1, rfl, by omega, le_rfl⟩⟩
    · next hauto =>
      cases h
      refine ⟨c, .stay hx rfl, hothers _, ?_, by simp, by simp⟩
      intro hauto'
      exact absurd hauto' hauto

/-- A row that a column list has placed is as long as the table is wide. -/
theorem fillColumns_spec {rest : List ColumnInfo}
    (hx : x.catalog.numbering name = some (columns, c))
    (hlisted : listed = true → j + rest.length ≤ row.length) (hj : j ≤ row.length)
    (h : fillColumns name listed j rest row x = (.ok row', x')) :
    ∃ c', CountsOn name columns c c' x x' ∧ (∀ i < j, row'[i]? = row[i]?) ∧
      ∀ k column, rest[k]? = some column → column.has .autoincrement = true →
        Filled c c' row[j + k]? row'[j + k]? := by
  induction rest generalizing j row x c with
  | nil =>
    cases h
    exact ⟨c, .stay hx rfl, fun _ _ => rfl, by simp⟩
  | cons column rest ih =>
    obtain ⟨row₁, x₁, hfirst, h⟩ := Effect.bind_eq_ok h
    obtain ⟨c₁, hcounts, hfills⟩ :
        ∃ c', CountsOn name columns c c' x x₁ ∧ FillsColumn j column c c' row row₁ := by
      cases listed with
      | true =>
        have hlen := hlisted rfl
        rw [List.length_cons] at hlen
        exact fillListed_spec hx (by omega) hfirst
      | false => exact fillPositional_spec hx hj hfirst
    have hlength := hfills.length_le
    obtain ⟨c', hcounts', hbefore, hrest⟩ := ih hcounts.known' (by
      intro heq
      have hlen := hlisted heq
      rw [List.length_cons] at hlen
      omega) hfills.reached h
    refine ⟨c', hcounts.trans hcounts', ?_, ?_⟩
    · intro i hi
      rw [hbefore i (by omega), hfills.others i (by omega)]
    · intro k column' hk hauto
      cases k with
      | zero =>
        -- the columns after it leave it alone
        obtain rfl : column = column' := by simpa using hk
        rw [Nat.add_zero, hbefore j (by omega)]
        exact (hfills.filled hauto).mono le_rfl hcounts'.le
      | succ k =>
        have hfilled := hrest k column' (by simpa using hk) hauto
        rw [show j + 1 + k = j + (k + 1) by omega, hfills.others _ (by omega)] at hfilled
        exact hfilled.mono hcounts.le le_rfl

end Executor

namespace Writer

/-- No table counts on. -/
def SameNumbering (w w' : Writer n ι) : Prop :=
  Executor.SameNumbering w.executor w'.executor

instance : Std.Refl (SameNumbering (n := n) (ι := ι)) where
  refl _ := rfl

instance : IsTrans (Writer n ι) SameNumbering where
  trans _ _ _ h h' := h'.trans h

theorem within_onExecutor {m : Exec n α} (hm : Effect.Within Executor.SameNumbering m) :
    Effect.Within SameNumbering (onExecutor m : Writes n ι α) :=
  hm.zoom fun _ _ h => h

theorem within_updateIndex (rt : Runtime ι) (values : Row) (rid : RecordId)
    (columnNames : List String) (index : IndexInfo) :
    Effect.Within SameNumbering (updateIndex rt values rid columnNames index : Writes n ι Unit) := by
  intro w
  unfold updateIndex
  split
  · split <;> rfl
  · rfl

theorem within_updateIndexesOnInsert (rt : Runtime ι) (name : String) (values : Row)
    (rid : RecordId) (columnNames : List String) :
    Effect.Within SameNumbering
      (updateIndexesOnInsert rt name values rid columnNames : Writes n ι Unit) := by
  refine (Effect.within_read _).bind fun indexes => Effect.within_forM fun index _ => ?_
  exact within_updateIndex rt values rid columnNames index

theorem within_logInsert (rt : Runtime ι) (txnId : ℤ) (name : String) (rid : RecordId) :
    Effect.Within SameNumbering (logInsert rt txnId name rid : Writes n ι Unit) :=
  fun _ => rfl

theorem onExecutor_eq_ok {m : Exec n α} {a : α} {w w' : Writer n ι}
    (h : onExecutor m w = (.ok a, w')) : m w.executor = (.ok a, w'.executor) := by
  unfold onExecutor Effect.zoom at h
  obtain ⟨hresult, rfl⟩ := Prod.mk.inj h
  exact Prod.ext hresult rfl

/-! ## Rows -/

theorem length_placeRow {columnNames : List String} {insertColumns : Option (List String)}
    {rowValues placed : Row} (h : placeRow columnNames insertColumns rowValues = .ok placed)
    (hlisted : isListed insertColumns = true) : placed.length = columnNames.length := by
  unfold placeRow at h
  rw [if_pos hlisted] at h
  unfold placeListed at h
  refine foldlM_keeps (I := fun row => row.length = columnNames.length) ?_ (by simp) h
  intro row named row' hrow hturn
  obtain ⟨colIdx, -, hturn⟩ := bind_eq_ok hturn
  obtain ⟨value, -, hturn⟩ := bind_eq_ok hturn
  cases hturn
  rw [List.length_set, hrow]

/-- Rows that a table was given one after the other, while it counted from one number to another. -/
def Numbered (j : ℕ) : ℤ → List Inserted → ℤ → Prop
  | c, [], c' => c = c'
  | c, r :: rows, c' =>
    c ≤ r.counter ∧ Executor.Filled c r.counter r.placed[j]? r.values[j]? ∧
      Numbered j r.counter rows c'

theorem Numbered.append {j : ℕ} {c c₁ c' : ℤ} {rows more : List Inserted}
    (h : Numbered j c rows c₁) (h' : Numbered j c₁ more c') : Numbered j c (rows ++ more) c' := by
  induction rows generalizing c with
  | nil =>
    obtain rfl : c = c₁ := h
    exact h'
  | cons r rows ih => exact ⟨h.1, h.2.1, ih h.2.2⟩

variable {rt : Runtime ι} {name : String} {info : TableInfo} {heap : HeapFile}
  {insertColumns : Option (List String)} {txnId : ℤ} {w w' : Writer n ι} {c : ℤ} {j : ℕ}
  {column : ColumnInfo}

theorem autoCounter_eq {columns : List ColumnInfo}
    (h : w.executor.catalog.numbering name = some (columns, c)) : autoCounter name w = c := by
  unfold Catalog.numbering at h
  obtain ⟨info, hinfo, heq⟩ := Option.map_eq_some_iff.mp h
  unfold autoCounter
  rw [hinfo]
  exact (Prod.mk.inj heq).2

theorem insertRow_spec {valueExprs : List Expr} {r : Inserted}
    (hw : w.executor.catalog.numbering name = some (info.columns, c))
    (h : insertRow rt name info heap insertColumns txnId valueExprs w = (.ok r, w')) :
    Executor.CountsOn name info.columns c r.counter w.executor w'.executor ∧
      ∀ (j : ℕ) column, info.columns[j]? = some column → column.has .autoincrement = true →
        Executor.Filled c r.counter r.placed[j]? r.values[j]? := by
  obtain ⟨rowValues, w₁, heval, h₁⟩ := Effect.bind_eq_ok h
  obtain ⟨-, hw₁⟩ := ofPython_eq_ok heval
  obtain ⟨placed, w₂, hplace, h₂⟩ := Effect.bind_eq_ok h₁
  obtain ⟨hplaced, hw₂⟩ := ofPython_eq_ok hplace
  obtain ⟨filled, w₃, hfill, h₃⟩ := Effect.bind_eq_ok h₂
  obtain ⟨rid, w₄, hinsert, h₄⟩ := Effect.bind_eq_ok h₃
  obtain ⟨_, w₅, hindex, h₅⟩ := Effect.bind_eq_ok h₄
  obtain ⟨_, w₆, hlog, h₆⟩ := Effect.bind_eq_ok h₅
  cases h₆
  rw [hw₂, hw₁] at hfill
  -- only the filling counts
  obtain ⟨c', hcounts, -, hfilled⟩ := Executor.fillColumns_spec hw (fun hlisted => by
    rw [length_placeRow hplaced hlisted, TableInfo.columnNames, List.length_map, Nat.zero_add])
    (Nat.zero_le _) (onExecutor_eq_ok hfill)
  have hsame : SameNumbering w₃ w' :=
    IsTrans.trans _ _ _ ((within_onExecutor (Executor.within_onHeap name heap _)).of_eq hinsert)
      (IsTrans.trans _ _ _ ((within_updateIndexesOnInsert rt name _ rid _).of_eq hindex)
        ((within_logInsert rt txnId name rid).of_eq hlog))
  have hcounts' : Executor.CountsOn name info.columns c c' w.executor w'.executor :=
    hcounts.trans (.stay hcounts.known' hsame)
  have hcounter : autoCounter name w' = c' := autoCounter_eq hcounts'.known'
  rw [hcounter]
  refine ⟨hcounts', fun j column hcolumn hauto => ?_⟩
  have hj := hfilled j column hcolumn hauto
  rw [Nat.zero_add] at hj
  have hv := hj.choose_spec.1
  rwa [List.getElem?_append_left (List.getElem?_eq_some_iff.mp hv).1]

theorem insertRows_spec {rowExprs : List (List Expr)} {rows : List Inserted}
    (hw : w.executor.catalog.numbering name = some (info.columns, c))
    (h : insertRows rt name info heap insertColumns txnId rowExprs w = (.ok rows, w')) :
    ∃ c', Executor.CountsOn name info.columns c c' w.executor w'.executor ∧
      ∀ (j : ℕ) column, info.columns[j]? = some column → column.has .autoincrement = true →
        Numbered j c rows c' := by
  induction rowExprs generalizing w c rows with
  | nil =>
    cases h
    exact ⟨c, .stay hw rfl, fun _ _ _ _ => rfl⟩
  | cons valueExprs rest ih =>
    obtain ⟨r, w₁, hrow, h₁⟩ := Effect.bind_eq_ok h
    obtain ⟨more, w₂, hmore, h₂⟩ := Effect.bind_eq_ok h₁
    cases h₂
    obtain ⟨hcounts, hfilled⟩ := insertRow_spec hw hrow
    obtain ⟨c', hcounts', hnumbered⟩ := ih hcounts.known' hmore
    refine ⟨c', hcounts.trans hcounts', fun j column hcolumn hauto => ?_⟩
    exact ⟨hcounts.le, hfilled j column hcolumn hauto, hnumbered j column hcolumn hauto⟩

theorem insertValues_spec {node : PlanNode} {rows : List Inserted}
    (h : insertValues rt name node txnId w = (.ok (info, rows), w')) :
    ∃ c c', Executor.CountsOn name info.columns c c' w.executor w'.executor ∧
      ∀ (j : ℕ) column, info.columns[j]? = some column → column.has .autoincrement = true →
        Numbered j c rows c' := by
  obtain ⟨info', w₁, hfind, h₁⟩ := Effect.bind_eq_ok h
  obtain ⟨schema, w₂, hschema, h₂⟩ := Effect.bind_eq_ok h₁
  obtain ⟨heap, w₃, hheap, h₃⟩ := Effect.bind_eq_ok h₂
  obtain ⟨rows', w₄, hrows, h₄⟩ := Effect.bind_eq_ok h₃
  cases h₄
  have hknown : w.executor.catalog.getTable name = some info := by
    have hget := onExecutor_eq_ok hfind
    unfold Executor.findTable at hget
    split at hget
    · cases (Prod.mk.inj hget).1
    · next hsome =>
      rw [hsome, Except.ok.inj (Prod.mk.inj hget).1]
  have hw : w.executor.catalog.numbering name =
      some (info.columns, info.autoIncrementCounter) := by
    rw [Catalog.numbering, hknown]
    rfl
  have hsame : SameNumbering w w₃ :=
    IsTrans.trans _ _ _ ((within_onExecutor (Executor.within_findTable name)).of_eq hfind)
      (IsTrans.trans _ _ _ ((Effect.within_lift _).of_eq hschema)
        ((within_onExecutor (Executor.within_getOrCreateHeap rt.py name schema)).of_eq hheap))
  have hopened : Executor.CountsOn name info.columns info.autoIncrementCounter
      info.autoIncrementCounter w.executor w₃.executor := .stay hw hsame
  obtain ⟨c', hcounts, hnumbered⟩ := insertRows_spec hopened.known' hrows
  exact ⟨info.autoIncrementCounter, c', hopened.trans hcounts, hnumbered⟩

/-! ## Statements -/

def runInsert (rt : Runtime ι) (txnId : ℤ) (stmt : InsertStatement) : Writes n ι QueryResult := do
  let node ← ofPython (planInsert stmt)
  execInsert rt node txnId

/-- The rows that a statement inserts, none if it raises. -/
def insertedRows (rt : Runtime ι) (txnId : ℤ) (stmt : InsertStatement) (w : Writer n ι) :
    List Inserted :=
  let inserting : Writes n ι (TableInfo × List Inserted) := do
    let node ← ofPython (planInsert stmt)
    insertValues rt stmt.table node txnId
  match (inserting w).1 with
  | .error _ => []
  | .ok (_, rows) => rows

theorem runInsert_spec {stmt : InsertStatement} {result : QueryResult}
    (h : runInsert rt txnId stmt w = (.ok result, w')) :
    ∃ columns c c', Executor.CountsOn stmt.table columns c c' w.executor w'.executor ∧
      ∀ (j : ℕ) column, columns[j]? = some column → column.has .autoincrement = true →
        Numbered j c (insertedRows rt txnId stmt w) c' := by
  obtain ⟨node, w₁, hplan, h₁⟩ := Effect.bind_eq_ok h
  obtain ⟨hplanned, hw₁⟩ := ofPython_eq_ok hplan
  rw [hw₁] at h₁ hplan
  have htable : node.info.tableName = some stmt.table := by
    obtain ⟨estimatedRows, -, hnode⟩ := bind_eq_ok hplanned
    cases hnode
    rfl
  unfold execInsert at h₁
  rw [htable, Option.getD_some] at h₁
  obtain ⟨⟨info, rows⟩, w₂, hvalues, h₂⟩ := Effect.bind_eq_ok h₁
  obtain ⟨_, w₃, hstats, h₃⟩ := Effect.bind_eq_ok h₂
  cases h₃
  obtain ⟨c, c', hcounts, hnumbered⟩ := insertValues_spec hvalues
  have hsame : SameNumbering w₂ w' := by
    refine Effect.Within.of_eq ?_ hstats
    apply within_onExecutor
    apply Effect.within_change
    intro x
    exact Catalog.numbering_updateTableStats x.catalog stmt.table _
  have hrows : insertedRows rt txnId stmt w = rows := by
    unfold insertedRows
    dsimp only
    rw [Effect.bind_ok hplan, hvalues]
  refine ⟨info.columns, c, c', hcounts.trans (.stay hcounts.known' hsame), ?_⟩
  rwa [hrows]

/-- INSERT statements that succeed, each with its transaction. -/
def insertMachine (rt : Runtime ι) (start : Writer n ι) :
    Machine (Writer n ι) (ℤ × InsertStatement) (Except DbError QueryResult) where
  init := start
  enabled w input := (runInsert rt input.1 input.2 w).1.isOk = true
  step w input := let r := runInsert rt input.1 input.2 w; (r.2, r.1)

instance (rt : Runtime ι) (start w : Writer n ι) (input : ℤ × InsertStatement) :
    Decidable ((insertMachine rt start).enabled w input) :=
  inferInstanceAs (Decidable ((runInsert rt input.1 input.2 w).1.isOk = true))

/-- The rows that a table was given in a run, the first one first. -/
def history (rt : Runtime ι) (name : String)
    (tr : List (Event (Writer n ι) (ℤ × InsertStatement) (Except DbError QueryResult))) :
    List Inserted :=
  tr.flatMap fun e =>
    if e.input.2.table = name then insertedRows rt e.input.1 e.input.2 e.pre else []

variable {start : Writer n ι}
  {tr : List (Event (Writer n ι) (ℤ × InsertStatement) (Except DbError QueryResult))}

/-- The counter of a table and the rows that it was given. -/
theorem numbered_of_run {columns : List ColumnInfo} (h : (insertMachine rt start).Run tr w)
    (hstart : start.executor.catalog.numbering name = some (columns, c))
    (hcolumn : columns[j]? = some column) (hauto : column.has .autoincrement = true) :
    ∃ c', w.executor.catalog.numbering name = some (columns, c') ∧
      Numbered j c (history rt name tr) c' := by
  refine h.invariant (I := fun tr w => ∃ c', w.executor.catalog.numbering name = some (columns, c') ∧
    Numbered j c (history rt name tr) c') ⟨c, hstart, rfl⟩ ?_
  rintro tr w ⟨txnId, stmt⟩ - ⟨c₁, hw, hnumbered⟩ hok
  obtain ⟨result, hresult⟩ := exists_ok_of_isOk hok
  obtain ⟨columns', d, d', hcounts, hrows⟩ := runInsert_spec (Prod.ext hresult rfl)
  have hhistory : history rt name (tr ++ [(insertMachine rt start).event w (txnId, stmt)]) =
      history rt name tr ++ if stmt.table = name then insertedRows rt txnId stmt w else [] := by
    rw [history, List.flatMap_append, List.flatMap_singleton]
    rfl
  rw [hhistory]
  show ∃ c', (runInsert rt txnId stmt w).2.executor.catalog.numbering name = _ ∧ _
  by_cases hname : stmt.table = name
  · subst hname
    obtain ⟨rfl, rfl⟩ := Prod.mk.inj (Option.some.inj (hw.symm.trans hcounts.known))
    rw [if_pos rfl]
    exact ⟨d', hcounts.known', hnumbered.append (hrows j column hcolumn hauto)⟩
  · -- another table
    rw [if_neg hname, List.append_nil, hcounts.counted,
      Function.update_of_ne (Ne.symm hname)]
    exact ⟨c₁, hw, hnumbered⟩

/-! ## Fresh numbers -/

/-- The value that a column holds after one was stored in it. -/
def readBack (py : Py) (column : ColumnInfo) (v : Value) : Except PyError Value :=
  if v.isNull then .ok .null else do reread py (← DataType.fromString py column.type) v

/-- A number, and what it is in the column once it was stored there. -/
def NumberIn (py : Py) (column : ColumnInfo) (m : ℤ) (v : Value) : Prop :=
  v = .int m ∨ readBack py column (.int m) = .ok v

/-- The numbers up to `c` are different values when they are stored, too. -/
def StoresApart (py : Py) (column : ColumnInfo) (c : ℤ) : Prop :=
  ∀ m k stored v, 0 < m → m < k → k ≤ c → readBack py column (.int m) = .ok stored →
    NumberIn py column k v → stored.eq v = false

theorem int_eq_false {m k : ℤ} (h : m < k) : (Value.int m).eq (.int k) = false := by
  show decide (Value.Key.num (.ofRat m) = .num (.ofRat k)) = false
  rw [decide_eq_false_iff_not, Value.Key.num.injEq, Num.ofRat_inj, Int.cast_inj]
  exact h.ne

theorem readBack_int {py : Py} {column : ColumnInfo} {t : DataType} {m : ℤ} {stored : Value}
    (htype : DataType.fromString py column.type = .ok t) (ht : t = .integer ∨ t = .timestamp)
    (h : readBack py column (.int m) = .ok stored) : stored = .int m := by
  have hread : reread py t (.int m) = .ok stored := by
    rw [readBack, htype] at h
    exact h
  obtain ⟨bs, hbs, hread⟩ := bind_eq_ok hread
  have hpack : packUnsigned 8 (flipSign m) = .ok bs := by
    rcases ht with rfl | rfl
    · exact hbs
    · exact hbs
  rw [← List.append_nil bs, (framed_int ht hpack).reads] at hread
  exact (Except.ok.inj hread).symm

/-- Integers are stored as they are. -/
theorem storesApart_of_integer {py : Py} {column : ColumnInfo} {t : DataType}
    (htype : DataType.fromString py column.type = .ok t) (ht : t = .integer ∨ t = .timestamp)
    (c : ℤ) : StoresApart py column c := by
  intro m k stored v _ hlt _ hstored hv
  rw [readBack_int htype ht hstored]
  rcases hv with rfl | hv
  · exact int_eq_false hlt
  · rw [readBack_int htype ht hv]
    exact int_eq_false hlt

theorem readBack_float {py : Py} {column : ColumnInfo} {m : ℤ} {stored : Value}
    (htype : DataType.fromString py column.type = .ok .float) (h0 : 0 < m) (hm : m ≤ 2 ^ 53)
    (h : readBack py column (.int m) = .ok stored) : stored.key = (Value.int m).key := by
  have hread : reread py .float (.int m) = .ok stored := by
    rw [readBack, htype] at h
    exact h
  obtain ⟨bs, hbs, hread⟩ := bind_eq_ok hread
  obtain ⟨x, hx, hpack⟩ := bind_eq_ok hbs
  cases hpack
  rw [← List.append_nil (packBE _ _), (framed_float x).reads] at hread
  cases hread
  obtain ⟨m, rfl⟩ := Int.eq_ofNat_of_zero_le h0.le
  have hround : x = .ofRat false ((m : ℤ) : ℚ) := by
    unfold Value.toFloat PyFloat.ofInt at hx
    dsimp only at hx
    split at hx <;> cases hx
    rfl
  have hexact : x.toNum = some (.ofRat m) := by
    rw [hround, Int.cast_natCast]
    exact PyFloat.toNum_ofRat_natCast (by omega) (by exact_mod_cast hm)
  show x.toNum.map Value.Key.num = _
  rw [hexact]
  rfl

/-- Floats hold every integer up to `2 ^ 53`. -/
theorem storesApart_of_float {py : Py} {column : ColumnInfo} {c : ℤ}
    (htype : DataType.fromString py column.type = .ok .float) (hc : c ≤ 2 ^ 53) :
    StoresApart py column c := by
  intro m k stored v h0 hlt hk hstored hv
  have hm : stored.key = (Value.int m).key := readBack_float htype h0 (by omega) hstored
  have hkey : v.key = (Value.int k).key := by
    rcases hv with rfl | hv
    · rfl
    · exact readBack_float htype (by omega) (by omega) hv
  rw [Value.eq, hm, hkey]
  exact int_eq_false hlt

/-- The statement put the value into the column. -/
def Inserted.Explicit (r : Inserted) (j : ℕ) (v : Value) : Prop :=
  r.placed[j]? = some v ∧ r.values[j]? = some v

/-- The column holds a value that the statement did not put there. -/
def Inserted.Generated (r : Inserted) (j : ℕ) (v : Value) : Prop :=
  r.values[j]? = some v ∧ r.placed[j]? ≠ some v

/-- What a statement put into the column is no number that the table has yet to give out, and the
type of the column is wide enough for those it has given out. -/
structure Inserted.CaughtUp (py : Py) (column : ColumnInfo) (j : ℕ) (r : Inserted) : Prop where
  explicit : ∀ v stored, r.Explicit j v → readBack py column v = .ok stored →
    ∀ m w, r.counter < m → NumberIn py column m w → stored.eq w = false
  apart : StoresApart py column r.counter

/-- A generated value, before it is stored and after, is different from what the rows before it hold
in the column. -/
def Fresh (py : Py) (column : ColumnInfo) (j : ℕ) (rows : List Inserted) : Prop :=
  rows.Pairwise fun r r' => ∀ v stored v' w, r.values[j]? = some v →
    readBack py column v = .ok stored → r'.Generated j v' →
    w = v' ∨ readBack py column v' = .ok w → stored.eq w = false

variable {rows : List Inserted} {c' : ℤ}

/-- What is generated is a number from between the counters. -/
theorem Numbered.generated (h : Numbered j c rows c') {r : Inserted} (hr : r ∈ rows) {v : Value}
    (hv : r.Generated j v) : ∃ m, v = .int m ∧ c < m ∧ m ≤ r.counter := by
  induction rows generalizing c with
  | nil => cases hr
  | cons first rest ih =>
    obtain ⟨hle, hfilled, hrest⟩ := h
    rcases List.mem_cons.mp hr with rfl | hr
    · obtain ⟨w, hw, hsource⟩ := hfilled
      obtain rfl : v = w := Option.some.inj (hv.1.symm.trans hw)
      exact hsource.resolve_left hv.2
    · obtain ⟨m, rfl, hlt, hm⟩ := ih hrest hr
      exact ⟨m, rfl, hle.trans_lt hlt, hm⟩

theorem Numbered.fresh {py : Py} (h : Numbered j c rows c') (h0 : 0 ≤ c)
    (hcaught : ∀ r ∈ rows, r.CaughtUp py column j) : Fresh py column j rows := by
  induction rows generalizing c with
  | nil => exact List.Pairwise.nil
  | cons r rest ih =>
    obtain ⟨hle, hfilled, hrest⟩ := h
    obtain ⟨hfirst, hothers⟩ := List.forall_mem_cons.mp hcaught
    refine List.Pairwise.cons ?_ (ih hrest (h0.trans hle) hothers)
    intro r' hr' v stored v' w hv hstored hv' hw
    obtain ⟨k, rfl, hk, hk'⟩ := hrest.generated hr' hv'
    obtain ⟨u, hu, hsource⟩ := hfilled
    obtain rfl : v = u := Option.some.inj (hv.symm.trans hu)
    rcases hsource with hplaced | ⟨m, rfl, hlt, hm⟩
    · exact hfirst.explicit v stored ⟨hplaced, hv⟩ hstored k w hk hw
    · -- two numbers of one counter
      exact (hothers r' hr').apart m k stored w (by omega) (by omega) hk' hstored hw

theorem history_fresh {info : TableInfo} (h : (insertMachine rt start).Run tr w)
    (hknown : start.executor.catalog.getTable name = some info)
    (hnew : info.autoIncrementCounter = 0) (hcolumn : info.columns[j]? = some column)
    (hauto : column.has .autoincrement = true)
    (hcaught : ∀ r ∈ history rt name tr, r.CaughtUp rt.py column j) :
    Fresh rt.py column j (history rt name tr) := by
  have hstart : start.executor.catalog.numbering name = some (info.columns, 0) := by
    rw [Catalog.numbering, hknown, ← hnew]
    rfl
  obtain ⟨c', -, hnumbered⟩ := numbered_of_run h hstart hcolumn hauto
  exact hnumbered.fresh le_rfl hcaught

/-- In a column of integers, what a statement puts there is to be no larger than the counter. -/
theorem caughtUp_of_le {py : Py} {t : DataType} {r : Inserted}
    (htype : DataType.fromString py column.type = .ok t) (ht : t = .integer ∨ t = .timestamp)
    (h : ∀ v, r.Explicit j v → v = .null ∨ ∃ m, v = .int m ∧ m ≤ r.counter) :
    r.CaughtUp py column j where
  explicit := by
    intro v stored hv hstored k w hk hw
    have hint : w = .int k := by
      rcases hw with rfl | hw
      · rfl
      · exact readBack_int htype ht hw
    rw [hint]
    rcases h v hv with rfl | ⟨m, rfl, hm⟩
    · cases hstored
      rfl
    · rw [readBack_int htype ht hstored]
      exact int_eq_false (by omega)
  apart := storesApart_of_integer htype ht r.counter

/-- A library for ASCII texts, when no NaN is put into an index. -/
def asciiRuntime : Runtime Index where
  py := .ascii
  hash _ := 0
  insertKey isUnique t v rid :=
    match v.key with
    | none => .ok t
    | some key => if isUnique then (t.insertUnique key rid).map Prod.fst else t.insert key rid

def idColumn : ColumnInfo := ⟨"id", "INTEGER", ["AUTOINCREMENT"]⟩

def keyTable : TableInfo := { name := "t", columns := [idColumn, ⟨"name", "TEXT", []⟩] }

/-- A table that was just created. -/
def newTable : Writer 1 Index where
  executor := (Executor.getOrCreateHeap .ascii "t"
    ⟨"t", ["id", "name"], [.integer, .text], none⟩ {
      catalog := { Catalog.empty with tables := Dict.empty.set "t" keyTable }
      heapFiles := .empty
      pool := .new (.ofFile []) }).2
  indexes := .empty
  wal := ⟨[], 1, 0, [], .empty⟩

theorem newTable_known : newTable.executor.catalog.getTable "t" =
    some { keyTable with firstPageId := 0 } := by
  decide +kernel

/-- A statement without the column, two rows by position and two by a column list. -/
def mixedInserts : List (ℤ × InsertStatement) := [
  (1, ⟨"t", some ["name"], [[.literal (.str "a")]]⟩),
  (2, ⟨"t", none, [[.literal (.int 0), .literal (.str "b")],
    [.literal .null, .literal (.str "c")]]⟩),
  (3, ⟨"t", some ["id", "name"], [[.literal .null, .literal (.str "d")],
    [.literal (.int 1), .literal (.str "e")]]⟩)]

/-- The rows of a run from the new table. -/
def keyRows (inputs : List (ℤ × InsertStatement)) : List Inserted :=
  history asciiRuntime "t" ((insertMachine asciiRuntime newTable).trace newTable inputs)

theorem keyRows_mixedInserts : keyRows mixedInserts = [
    ⟨[.null, .str "a"], [.int 1, .str "a"], ⟨0, 0⟩, 1⟩,
    ⟨[.int 0, .str "b"], [.int 0, .str "b"], ⟨0, 1⟩, 1⟩,
    ⟨[.null, .str "c"], [.null, .str "c"], ⟨0, 2⟩, 1⟩,
    ⟨[.null, .str "d"], [.int 2, .str "d"], ⟨0, 3⟩, 2⟩,
    ⟨[.int 1, .str "e"], [.int 1, .str "e"], ⟨0, 4⟩, 2⟩] := by
  decide +kernel

theorem history_fresh_mixedInserts : Fresh .ascii idColumn 0 (keyRows mixedInserts) := by
  have hlegal : (insertMachine asciiRuntime newTable).Legal newTable mixedInserts := by
    decide +kernel
  have hauto : idColumn.has .autoincrement = true := by decide
  refine history_fresh (Machine.run_of_legal hlegal) newTable_known rfl rfl hauto fun r hr => ?_
  refine caughtUp_of_le (by decide +kernel) (.inl rfl) ?_
  replace hr : r ∈ keyRows mixedInserts := hr
  rw [keyRows_mixedInserts] at hr
  simp only [List.mem_cons, List.not_mem_nil, or_false] at hr
  rintro v ⟨hplaced, hvalues⟩
  rcases hr with rfl | rfl | rfl | rfl | rfl
  · cases hplaced
    cases hvalues
  · cases hplaced
    exact .inr ⟨0, rfl, by decide⟩
  · cases hplaced
    exact .inl rfl
  · cases hplaced
    cases hvalues
  · cases hplaced
    exact .inr ⟨1, rfl, by decide⟩

/-- The key 1 by hand, then a key that is left out. -/
def handedKey : List (ℤ × InsertStatement) := [
  (1, ⟨"t", none, [[.literal (.int 1), .literal (.str "a")]]⟩),
  (2, ⟨"t", some ["name"], [[.literal (.str "b")]]⟩)]

theorem handedKey_repeated : ¬∀ (inputs : List (ℤ × InsertStatement)),
    (insertMachine asciiRuntime newTable).Legal newTable inputs →
      Fresh .ascii idColumn 0 (keyRows inputs) := by
  intro h
  have hrows : keyRows handedKey = [
      ⟨[.int 1, .str "a"], [.int 1, .str "a"], ⟨0, 0⟩, 0⟩,
      ⟨[.null, .str "b"], [.int 1, .str "b"], ⟨0, 1⟩, 1⟩] := by
    decide +kernel
  have hfresh := h handedKey (by decide +kernel)
  rw [hrows] at hfresh
  have hpair := List.rel_of_pairwise_cons hfresh (List.mem_singleton_self _)
  have hne := hpair (.int 1) (.int 1) (.int 1) (.int 1) rfl (by decide +kernel)
    ⟨rfl, by decide⟩ (.inl rfl)
  cases hne

end Writer

end PySQL.Query
