import PySQL.Query.SessionRows

/-!
# INSERT in a session

The rows of a statement are added to the table and to its indexes.
-/

namespace PySQL.Query

open Lib Storage

set_option linter.unusedSectionVars false

variable {n : ℕ} [NeZero n] {α : Type}

namespace Writer

/-! ## Pages are only added -/

/-- The database file has all the pages that it had. -/
def Grows (w w' : Writer n Index) : Prop := w.executor.pool.Grows w'.executor.pool

instance : Std.Refl (Grows (n := n)) where
  refl w := le_refl w.executor.pool.numPages

instance : IsTrans (Writer n Index) Grows where
  trans _ _ _ h h' := le_trans (show BufferPool.numPages _ ≤ BufferPool.numPages _ from h) h'

theorem grows_onExecutor {m : Exec n α} (h : ∀ x : Executor n, x.pool.Grows (m x).2.pool) :
    Effect.Within Grows (onExecutor m : Writes n Index α) :=
  fun w => h w.executor

theorem grows_updateIndex (rt : Runtime Index) (values : Row) (rid : RecordId)
    (columnNames : List String) (index : IndexInfo) :
    Effect.Within Grows (updateIndex rt values rid columnNames index : Writes n Index Unit) := by
  intro w
  unfold updateIndex
  split
  · split <;> exact le_refl w.executor.pool.numPages
  · exact le_refl w.executor.pool.numPages

theorem grows_insertRow (rt : Runtime Index) (name : String) (info : TableInfo) (heap : HeapFile)
    (insertColumns : Option (List String)) (txnId : ℤ) (valueExprs : List Expr) :
    Effect.Within Grows
      (insertRow rt name info heap insertColumns txnId valueExprs : Writes n Index Inserted) := by
  refine (Effect.within_lift _).bind fun rowValues => ?_
  refine (Effect.within_lift _).bind fun placed => ?_
  refine Effect.Within.bind (grows_onExecutor fun x => ?_) fun filled => ?_
  · have hcounted := Executor.counted_fillColumns name (isListed insertColumns) 0 info.columns placed x
    rw [hcounted.pool]
    exact le_refl x.pool.numPages
  dsimp only
  refine Effect.Within.bind (grows_onExecutor fun x => ?_) fun rid => ?_
  · exact HeapFile.grows_insert rt.py _ ((x.heapFiles.get? name).getD heap, x.pool)
  refine Effect.Within.bind ((Effect.within_read _).bind fun indexes => ?_) fun _ => ?_
  · exact Effect.within_forM fun index _ => grows_updateIndex rt _ rid _ index
  refine Effect.Within.bind (fun w => le_refl w.executor.pool.numPages) fun _ => ?_
  exact (Effect.within_read _).bind fun counter => Effect.within_pure _

theorem grows_insertRows (rt : Runtime Index) (name : String) (info : TableInfo) (heap : HeapFile)
    (insertColumns : Option (List String)) (txnId : ℤ) (rowExprs : List (List Expr)) :
    Effect.Within Grows (insertRows rt name info heap insertColumns txnId rowExprs :
      Writes n Index (List Inserted)) := by
  induction rowExprs with
  | nil => exact Effect.within_pure []
  | cons valueExprs rest ih =>
    refine (grows_insertRow rt name info heap insertColumns txnId valueExprs).bind fun row => ?_
    exact ih.bind fun rows => Effect.within_pure _

/-! ## A row -/

variable {w w' : Writer n Index} {written written' : ℤ → Option Page} {d : Contents}
  {name : String} {r : Relation} {info : TableInfo} {heap : HeapFile} {rt : Runtime Index}
  {insertColumns : Option (List String)} {txnId : ℤ}

/-- What the catalog says of a table that there is. -/
theorem Stores.columns {py : Py} (h : w.Stores py written d) (ht : d.tables name = some r)
    (hdef : w.executor.catalog.definition name = some info.definition) :
    info.columns = r.columns := by
  have htable := h.tables name
  rw [ht] at htable
  obtain ⟨info₁, heap, hknown, hcolumns, -⟩ := htable
  rw [Catalog.definition, hknown, Option.map_some, Option.some.injEq] at hdef
  exact (Prod.mk.inj (Prod.mk.inj hdef).2).1.symm.trans hcolumns

/-- The indexes of a table, each once. -/
theorem mem_getIndexesForTable {py : Py} (h : w.Stores py written d) {index : IndexInfo} :
    index ∈ w.executor.catalog.getIndexesForTable name ↔
      (∃ indexName, d.indexes indexName = some index) ∧ index.tableName = name := by
  rw [Catalog.getIndexesForTable, List.mem_filter, Dict.mem_values, h.known, decide_eq_true_eq]

theorem StandsFor.nodup_indexes {py : Py} (h : w.StandsFor py written d) (name : String) :
    ((w.executor.catalog.getIndexesForTable name).map IndexInfo.name).Nodup := by
  have hnodup : (w.executor.catalog.indexes.values.map IndexInfo.name).Nodup := by
    refine Dict.nodup_values fun indexName index hindex => ?_
    rw [h.known] at hindex
    exact (h.indexes indexName index hindex).1
  exact hnodup.sublist (List.filter_sublist.map _)

/-- The name of an index is not that of an index on another table. -/
theorem StandsFor.not_mem_names {py : Py} (h : w.StandsFor py written d) {indexName : String}
    {index : IndexInfo} (hindex : d.indexes indexName = some index)
    (htable : index.tableName ≠ name) :
    indexName ∉ (w.executor.catalog.getIndexesForTable name).map IndexInfo.name := by
  intro hmem
  obtain ⟨index', hmem', hname'⟩ := List.mem_map.mp hmem
  obtain ⟨⟨indexName', hindex'⟩, htable'⟩ := (mem_getIndexesForTable h.toStores).mp hmem'
  have hsame := (h.indexes indexName' index' hindex').1
  rw [← hsame, hname', hindex, Option.some.injEq] at hindex'
  exact htable (hindex' ▸ htable')

theorem entries_put_self (d : Contents) (r : Relation) {index : IndexInfo}
    (h : index.tableName = name) : (d.put name r).entries index = r.entries index := by
  rw [Contents.entries, h, tables_put_self]
  rfl

theorem entries_put_ne (d : Contents) (r : Relation) {index : IndexInfo}
    (h : index.tableName ≠ name) : (d.put name r).entries index = d.entries index := by
  rw [Contents.entries, tables_put_ne d r h, Contents.entries]

theorem Stores.of_executor {py : Py} (h : w.Stores py written d)
    (hexecutor : w'.executor = w.executor) : w'.Stores py written d := by
  apply h.counted
  rw [hexecutor]
  exact Std.Refl.refl w.executor

/-- The log is not part of what a database stands for. -/
theorem StandsFor.of_eq {py : Py} (h : w.StandsFor py written d)
    (hexecutor : w'.executor = w.executor) (hindexes : w'.indexes = w.indexes) :
    w'.StandsFor py written d where
  toStores := h.toStores.of_executor hexecutor
  indexes indexName index hindex := by
    obtain ⟨hname, tree, listed, htree, hlists⟩ := h.indexes indexName index hindex
    exact ⟨hname, tree, listed, hindexes ▸ htree, hlists⟩

theorem onExecutor_eq {m : Exec n α} {result : Except DbError α}
    (h : onExecutor m w = (result, w')) : w'.indexes = w.indexes := by
  unfold onExecutor Effect.zoom at h
  obtain ⟨-, rfl⟩ := Prod.mk.inj h
  rfl

/-- The state after the heap file took a row and the trees of the table's indexes were updated. -/
theorem StandsFor.enter {w₁ : Writer n Index} {rid : RecordId} {values row : Row}
    (h : w.StandsFor rt.py written d) (hrt : rt.Trees) (ht : d.tables name = some r)
    (hstored : w₁.Stores rt.py written' (d.put name (r.add [(rid, row)])))
    (hindexes : w₁.indexes = w.indexes)
    (hknown : w₁.executor.catalog.indexes = w.executor.catalog.indexes)
    (hkeys : row.map Value.key = values.map Value.key) (hkeyed : ∀ v ∈ values, v.key.isSome)
    (hrun : updateIndexesOnInsert rt name values rid (r.columns.map ColumnInfo.name) w₁ =
      (.ok (), w')) :
    w'.StandsFor rt.py written' (d.put name (r.add [(rid, row)])) ∧ w'.executor = w₁.executor := by
  have hlist : w₁.executor.catalog.getIndexesForTable name =
      w.executor.catalog.getIndexesForTable name := by
    rw [Catalog.getIndexesForTable, hknown, Catalog.getIndexesForTable]
  have hold : ∀ index ∈ w.executor.catalog.getIndexesForTable name,
      w₁.IndexAt index.name index (r.entries index) := by
    intro index hmem
    obtain ⟨⟨indexName, hindex⟩, htable⟩ := (mem_getIndexesForTable h.toStores).mp hmem
    obtain ⟨hname, tree, listed, htree, hlists⟩ := h.indexes indexName index hindex
    have hentries : d.entries index = r.entries index := by
      rw [Contents.entries, htable, ht]
      rfl
    rw [hentries] at hlists
    refine ⟨rfl, tree, listed, ?_, hlists⟩
    rw [hindexes, hname, htree]
  have hloop : (w.executor.catalog.getIndexesForTable name).forM
      (updateIndex rt values rid (r.columns.map ColumnInfo.name)) w₁ = (.ok (), w') := by
    rw [← hlist]
    exact hrun
  obtain ⟨hexecutor, hentered, hothers⟩ :=
    updateIndexes_spec hrt hkeys hkeyed (h.nodup_indexes name) hold hloop
  refine ⟨⟨hstored.of_executor hexecutor, ?_⟩, hexecutor⟩
  intro indexName index hindex
  · have hindex : d.indexes indexName = some index := hindex
    obtain ⟨hname, tree, listed, htree, hlists⟩ := h.indexes indexName index hindex
    by_cases htable : index.tableName = name
    · have hmem : index ∈ w.executor.catalog.getIndexesForTable name :=
        (mem_getIndexesForTable h.toStores).mpr ⟨⟨indexName, hindex⟩, htable⟩
      rw [entries_put_self d _ htable, ← hname]
      exact hentered index hmem
    · rw [entries_put_ne d _ htable]
      refine ⟨hname, tree, listed, ?_, hlists⟩
      rw [hothers indexName (h.not_mem_names hindex htable), hindexes, htree]

/-- A row of the statement, stored and entered into the indexes. -/
theorem StandsFor.insert_row (hn : 2 ≤ n) (hrt : rt.Trees) (h : w.StandsFor rt.py written d)
    (ht : d.tables name = some r)
    (hdef : w.executor.catalog.definition name = some info.definition) {valueExprs : List Expr}
    {ins : Inserted}
    (hrun : insertRow rt name info heap insertColumns txnId valueExprs w = (.ok ins, w'))
    (hnum : w'.executor.pool.numPages < INVALID_PAGE_ID) (hback : ReadsBack rt.py info ins.values) :
    ∃ written' row, w'.StandsFor rt.py written' (d.put name (r.add [(ins.rid, row)])) ∧
      Gives rt.py r.columns insertColumns valueExprs row ∧
      w'.executor.catalog.definition name = some info.definition := by
  have hgrows : w.Grows w' :=
    (grows_insertRow rt name info heap insertColumns txnId valueExprs).of_eq hrun
  have hcolumns := h.columns ht hdef
  have hnames : info.columnNames = r.columns.map ColumnInfo.name := by
    rw [TableInfo.columnNames, hcolumns]
  obtain ⟨rowValues, w₁, heval, h₁⟩ := Effect.bind_eq_ok hrun
  obtain ⟨hvalues, hw₁⟩ := ofPython_eq_ok heval
  obtain ⟨placed, w₂, hplace, h₂⟩ := Effect.bind_eq_ok h₁
  obtain ⟨hplaced, hw₂⟩ := ofPython_eq_ok hplace
  rw [hw₂, hw₁] at h₂
  obtain ⟨filled, w₃, hfill, h₃⟩ := Effect.bind_eq_ok h₂
  obtain ⟨rid, w₄, hinsert, h₄⟩ := Effect.bind_eq_ok h₃
  obtain ⟨_, w₅, hindex, h₅⟩ := Effect.bind_eq_ok h₄
  obtain ⟨_, w₆, hlog, h₆⟩ := Effect.bind_eq_ok h₅
  cases h₆
  obtain ⟨-, rfl⟩ := Prod.mk.inj hlog
  dsimp only at hback hnum hgrows ⊢
  have hcounted : Executor.Counted w.executor w₃.executor :=
    (Executor.counted_fillColumns name _ 0 info.columns placed).of_eq (onExecutor_eq_ok hfill)
  have hdef₃ : w₃.executor.catalog.definition name = some info.definition := by
    rw [hcounted.catalog.1, hdef]
  have hnum₃ : w₃.executor.pool.numPages < INVALID_PAGE_ID := by
    rw [hcounted.pool]
    exact lt_of_le_of_lt hgrows hnum
  obtain ⟨written', row, hstored, hkeys, hkeyed, hcatalog, hindexes⟩ :=
    (h.toStores.counted hcounted).insert_heap hn ht hdef₃ hnum₃ hback hinsert
  rw [hnames] at hindex
  obtain ⟨hstands, hexecutor⟩ := h.enter hrt ht hstored (hindexes.trans (onExecutor_eq hfill))
    (by rw [hcatalog, hcounted.catalog.2]) hkeys hkeyed hindex
  refine ⟨written', row, hstands.of_eq rfl rfl, ⟨rowValues, placed, _, hvalues, ?_, ?_, hkeys⟩, ?_⟩
  · rw [← hnames]
    exact hplaced
  · intro j column hj
    rw [← hcolumns] at hj
    obtain ⟨-, hsupplied⟩ := Executor.fillColumns_supplied (fun _ => Nat.zero_le _)
      (onExecutor_eq_ok hfill)
    have hsupplied := hsupplied j column hj
    rw [Nat.zero_add] at hsupplied
    have hlt := (List.getElem?_eq_some_iff.mp hj).1
    exact Executor.supplied_padded _ hsupplied (by omega)
  · rw [hexecutor, hcatalog]
    exact hdef₃

theorem put_add_nil (ht : d.tables name = some r) : d.put name (r.add []) = d := by
  have htables : Function.update d.tables name (some r) = d.tables := by
    rw [← ht]
    exact Function.update_eq_self name d.tables
  rw [Relation.add, List.append_nil, Contents.put, htables]

theorem put_add_add (d : Contents) (name : String) (r : Relation)
    (added more : List (RecordId × Row)) :
    (d.put name (r.add added)).put name ((r.add added).add more) =
      d.put name (r.add (added ++ more)) := by
  rw [Contents.put, Contents.put, Contents.put, Function.update_idem]
  simp only [Relation.add, List.append_assoc]

/-- The rows of the statement, one after the other. -/
theorem StandsFor.insert_rows (hn : 2 ≤ n) (hrt : rt.Trees) (h : w.StandsFor rt.py written d)
    (ht : d.tables name = some r)
    (hdef : w.executor.catalog.definition name = some info.definition)
    {rowExprs : List (List Expr)} {rows : List Inserted}
    (hrun : insertRows rt name info heap insertColumns txnId rowExprs w = (.ok rows, w'))
    (hnum : w'.executor.pool.numPages < INVALID_PAGE_ID)
    (hback : ∀ ins ∈ rows, ReadsBack rt.py info ins.values) :
    ∃ written' added, w'.StandsFor rt.py written' (d.put name (r.add added)) ∧
      added.length = rows.length ∧
      List.Forall₂ (fun valueExprs p => Gives rt.py r.columns insertColumns valueExprs p.2)
        rowExprs added := by
  induction rowExprs generalizing w written d r rows with
  | nil =>
    cases hrun
    refine ⟨written, [], ?_, rfl, .nil⟩
    rw [put_add_nil ht]
    exact h
  | cons valueExprs rest ih =>
    obtain ⟨ins, w₁, hone, h₁⟩ := Effect.bind_eq_ok hrun
    obtain ⟨more, w₂, hmore, h₂⟩ := Effect.bind_eq_ok h₁
    cases h₂
    obtain ⟨hbackOne, hbackMore⟩ := List.forall_mem_cons.mp hback
    have hgrows : w₁.Grows w' :=
      (grows_insertRows rt name info heap insertColumns txnId rest).of_eq hmore
    obtain ⟨written₁, row, hstands, hgives, hdef₁⟩ :=
      h.insert_row hn hrt ht hdef hone (lt_of_le_of_lt hgrows hnum) hbackOne
    obtain ⟨written', added, hstands', hlength, hall⟩ :=
      ih hstands (tables_put_self d name _) hdef₁ hmore hbackMore
    refine ⟨written', (ins.rid, row) :: added, ?_, ?_, .cons hgives hall⟩
    · rw [put_add_add] at hstands'
      exact hstands'
    · rw [List.length_cons, List.length_cons, hlength]

/-! ## The statement -/

/-- A table that a statement finds. -/
theorem Stores.find {py : Py} (h : w.Stores py written d) {w₁ : Writer n Index}
    (hfind : onExecutor (Executor.findTable name) w = (.ok info, w₁)) :
    w₁ = w ∧ w.executor.catalog.getTable name = some info ∧ ∃ r, d.tables name = some r := by
  have hget := onExecutor_eq_ok hfind
  have hindexes := onExecutor_eq hfind
  unfold Executor.findTable at hget
  unfold onExecutor Effect.zoom Executor.findTable at hfind
  have htable := h.tables name
  cases hr : d.tables name with
  | none =>
    rw [hr] at htable
    rw [htable.1] at hget
    cases (Prod.mk.inj hget).1
  | some r =>
    rw [hr] at htable
    obtain ⟨info₁, heap, hknown, -⟩ := htable
    rw [hknown] at hget hfind
    obtain ⟨-, rfl⟩ := Prod.mk.inj hfind
    exact ⟨rfl, hknown.trans (congrArg some (Except.ok.inj (Prod.mk.inj hget).1)), r, rfl⟩

/-- The file of a table is open. -/
theorem Stores.open_heap {py : Py} (h : w.Stores py written d) (ht : d.tables name = some r)
    {schema : TableSchema} {w₁ : Writer n Index}
    (hopen : onExecutor (Executor.getOrCreateHeap py name schema) w = (.ok heap, w₁)) :
    w₁ = w ∧ w.executor.heapFiles.get? name = some heap := by
  have htable := h.tables name
  rw [ht] at htable
  obtain ⟨info, heap₁, hknown, hcolumns, hheap, -⟩ := htable
  unfold onExecutor Effect.zoom at hopen
  rw [Executor.getOrCreateHeap_opened py schema hheap] at hopen
  obtain ⟨hsame, rfl⟩ := Prod.mk.inj hopen
  exact ⟨rfl, hheap.trans (congrArg some (Except.ok.inj hsame))⟩

theorem StandsFor.nodup_rows {py : Py} (h : w.StandsFor py written d)
    (ht : d.tables name = some r) : (r.rows.map Prod.fst).Nodup := by
  have htable := h.tables name
  rw [ht] at htable
  obtain ⟨info, heap, hknown, hcolumns, hheap, hschema, hholds⟩ := htable
  exact hholds.nodup

theorem StandsFor.insert (hn : 2 ≤ n) (hrt : rt.Trees) (h : w.StandsFor rt.py written d)
    {stmt : InsertStatement} {result : QueryResult}
    (hrun : runInsert rt txnId stmt w = (.ok result, w'))
    (hnum : w'.executor.pool.numPages < INVALID_PAGE_ID)
    (hsound : (SessionCall.insert stmt txnId).Sound rt w) :
    ∃ written' d', w'.StandsFor rt.py written' d' ∧
      SessionAnswers rt.py d (.insert stmt txnId) (.done result) d' := by
  obtain ⟨node, w₀, hplan, h₀⟩ := Effect.bind_eq_ok hrun
  obtain ⟨hplanned, hw₀⟩ := ofPython_eq_ok hplan
  rw [hw₀] at h₀ hplan
  obtain ⟨estimatedRows, -, hnode⟩ := bind_eq_ok hplanned
  cases hnode
  obtain ⟨⟨info, rows⟩, w₁, hvalues, h₁⟩ := Effect.bind_eq_ok h₀
  obtain ⟨_, w₂, hstats, h₂⟩ := Effect.bind_eq_ok h₁
  cases h₂
  rw [PlanNode.info, Option.getD_some] at hvalues
  have hinserted : insertedRows rt txnId stmt w = rows := by
    unfold insertedRows
    dsimp only
    rw [Effect.bind_ok hplan, hvalues]
  obtain ⟨info', v₁, hfind, k₁⟩ := Effect.bind_eq_ok hvalues
  obtain ⟨schema, v₂, hschema, k₂⟩ := Effect.bind_eq_ok k₁
  obtain ⟨heap, v₃, hheap, k₃⟩ := Effect.bind_eq_ok k₂
  obtain ⟨rows', v₄, hrows, k₄⟩ := Effect.bind_eq_ok k₃
  cases k₄
  obtain ⟨hv₁, hknown, r, ht⟩ := h.find hfind
  obtain ⟨-, hv₂⟩ := ofPython_eq_ok hschema
  rw [hv₂, hv₁] at hheap
  obtain ⟨hv₃, -⟩ := h.open_heap ht hheap
  rw [hv₃] at hrows
  have hback : ∀ ins ∈ rows, ReadsBack rt.py info ins.values := by
    intro ins hins
    exact hsound info hknown ins (hinserted ▸ hins)
  have hdef : w.executor.catalog.definition stmt.table = some info.definition := by
    rw [Catalog.definition, hknown, Option.map_some]
  -- the estimate of the number of rows is written last
  have hcounted : Executor.Counted w₁.executor w'.executor := by
    have hchange := onExecutor_eq_ok hstats
    rw [← (Prod.mk.inj hchange).2]
    exact ⟨rfl, rfl, Catalog.same_updateTable _ _ fun _ => rfl⟩
  rw [hcounted.pool] at hnum
  obtain ⟨written', added, hstands, hlength, hgives⟩ :=
    h.insert_rows hn hrt ht hdef hrows hnum hback
  have hstands' : w'.StandsFor rt.py written' (d.put stmt.table (r.add added)) := by
    refine ⟨hstands.toStores.counted hcounted, ?_⟩
    intro indexName index hindex
    obtain ⟨hname, tree, listed, htree, hlists⟩ := hstands.indexes indexName index hindex
    refine ⟨hname, tree, listed, ?_, hlists⟩
    rw [onExecutor_eq hstats, htree]
  refine ⟨written', _, hstands', ?_⟩
  rw [← hlength]
  exact .insert ht hgives (hstands'.nodup_rows (tables_put_self d stmt.table _))

end Writer

end PySQL.Query
