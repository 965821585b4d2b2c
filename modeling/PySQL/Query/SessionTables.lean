import PySQL.Query.Delete
import PySQL.Query.SessionIndex

/-!
# CREATE TABLE and DROP TABLE in a session

A new table has a heap file without rows; a table that is dropped goes with its indexes.
-/

namespace PySQL.Query

open Lib Storage

set_option linter.unusedSectionVars false

variable {n : ℕ} [NeZero n] {py : Py} {written : ℤ → Option Page} {name : String} {d : Contents}
  {rt : Runtime Index}

namespace Writer

variable {w w' : Writer n Index}

/-! ## CREATE TABLE -/

theorem grows_init (schema : TableSchema) :
    Effect.Within BufferPool.Grows (HeapFile.init schema none : PoolCalls n HeapFile) := by
  refine HeapFile.grows_newPage.bind fun page => ?_
  exact (HeapFile.grows_unpinPage _ true).bind fun _ => Effect.within_pure _

theorem entries_empty (columns : List ColumnInfo) (index : IndexInfo) :
    (⟨columns, []⟩ : Relation).entries index = [] := by
  unfold Relation.entries
  split <;> rfl

/-- An index that waits for its table has no entries, and none when the table comes. -/
theorem entries_put_empty (hnew : d.tables name = none) (columns : List ColumnInfo)
    (index : IndexInfo) : (d.put name ⟨columns, []⟩).entries index = d.entries index := by
  by_cases hname : index.tableName = name
  · rw [entries_put_self d _ hname, entries_empty, Contents.entries, hname, hnew]
    rfl
  · exact entries_put_ne d _ hname

theorem holdsRows_nil {heap : HeapFile} (h : heap.recordAt written = fun _ => none) :
    HoldsRows py heap written [] where
  nodup := List.nodup_nil
  mem_iff rid row := by simp [h]
  readable rid data hdata := by
    rw [h] at hdata
    cases hdata
  keyed p hp := by cases hp

/-- The state after a new table got its heap file. -/
theorem StandsFor.put_table {written' : ℤ → Option Page} {info : TableInfo} {heap : HeapFile}
    {schema : TableSchema} {catalog : Catalog} {pool : BufferPool n}
    (h : w.StandsFor py written d) (hschema : getSchema py info = .ok schema)
    (hserves : pool.Serves [] written') (hstarts : heap.Starts schema written written')
    (hcreate : w.executor.catalog.createTable { info with firstPageId := heap.firstPageId } =
      .ok catalog)
    (hexecutor : w'.executor =
      { catalog, heapFiles := w.executor.heapFiles.set info.name heap, pool })
    (hindexes : w'.indexes = w.indexes) :
    d.tables info.name = none ∧
      w'.StandsFor py written' (d.put info.name ⟨info.columns, []⟩) := by
  unfold Catalog.createTable at hcreate
  split at hcreate
  · cases hcreate
  · next hfree =>
    have hfree : w.executor.catalog.getTable info.name = none :=
      Option.not_isSome_iff_eq_none.mp hfree
    have hnew : d.tables info.name = none := by
      have htable := h.tables info.name
      cases ht : d.tables info.name with
      | none => rfl
      | some r =>
        rw [ht] at htable
        obtain ⟨info', heap', hknown, -⟩ := htable
        rw [hfree] at hknown
        cases hknown
    have hcatalog := (Except.ok.inj hcreate).symm
    obtain ⟨hfamily, hpacked, hagree⟩ := h.family.starts (k := info.name) hstarts
    refine ⟨hnew, ⟨⟨?_, ?_, ?_, ?_, ?_⟩, ?_⟩⟩
    · rw [hexecutor]
      exact hserves
    · rw [hexecutor, Dict.get?_set_eq_update]
      exact hfamily
    · rw [hexecutor, Dict.get?_set_eq_update]
      exact hpacked h.packed
    · intro other
      have hget : w'.executor.catalog.getTable other =
          if info.name = other then some { info with firstPageId := heap.firstPageId }
          else w.executor.catalog.getTable other := by
        rw [hexecutor, hcatalog]
        exact Dict.get?_set ..
      by_cases hother : other = info.name
      · subst hother
        rw [tables_put_self]
        refine ⟨_, heap, hget.trans (if_pos rfl), rfl, ?_, ?_, holdsRows_nil hstarts.vacant⟩
        · rw [hexecutor]
          exact Dict.get?_set_self ..
        · rw [hstarts.schema]
          exact hschema
      · rw [tables_put_ne d _ hother]
        apply (h.tables other).congr
        · rw [Catalog.definition, hget, if_neg (Ne.symm hother), Catalog.definition]
        · rw [hexecutor]
          exact Dict.get?_set_ne _ _ (Ne.symm hother)
        · exact hagree other
    · rw [hexecutor, hcatalog]
      exact h.known
    · intro indexName index hindex
      obtain ⟨hname, tree, listed, htree, hlists⟩ := h.indexes indexName index hindex
      rw [entries_put_empty hnew]
      refine ⟨hname, tree, listed, ?_, hlists⟩
      rw [hindexes]
      exact htree

/-- The index of the primary key, on a table without rows. -/
theorem StandsFor.add_primary_index {info : TableInfo} (h : w.StandsFor py written d)
    (hempty : ∀ index : IndexInfo, index.tableName = info.name → d.entries index = [])
    (hrun : addPrimaryIndex info w = (.ok (), w')) :
    w'.StandsFor py written (d.addPrimaryIndex info) := by
  unfold addPrimaryIndex at hrun
  unfold Contents.addPrimaryIndex
  cases hkey : info.primaryKey with
  | none =>
    rw [hkey] at hrun
    obtain ⟨-, rfl⟩ := Prod.mk.inj hrun
    exact h
  | some key =>
    rw [hkey] at hrun
    by_cases hne : key ≠ ""
    · simp only [if_pos hne] at hrun ⊢
      obtain ⟨-, hstores, htrees⟩ := h.toStores.add_index hrun
      apply h.with_index hstores
      · intro other hother
        rw [htrees]
        exact Dict.get?_set_ne _ _ (Ne.symm hother)
      · refine ⟨rfl, Index.new, [], ?_, Index.lists_new _, ?_⟩
        · rw [htrees]
          exact Dict.get?_set_self ..
        · rw [hempty _ rfl]
    · simp only [if_neg hne] at hrun ⊢
      obtain ⟨-, rfl⟩ := Prod.mk.inj hrun
      exact h

theorem pool_addPrimaryIndex {info : TableInfo} (hrun : addPrimaryIndex info w = (.ok (), w')) :
    w'.executor.pool = w.executor.pool := by
  unfold addPrimaryIndex at hrun
  cases hkey : info.primaryKey with
  | none =>
    rw [hkey] at hrun
    obtain ⟨-, rfl⟩ := Prod.mk.inj hrun
    rfl
  | some key =>
    rw [hkey] at hrun
    by_cases hne : key ≠ ""
    · simp only [if_pos hne] at hrun
      obtain ⟨_, w₁, hput, hregister⟩ := Effect.bind_eq_ok hrun
      obtain ⟨-, rfl⟩ := Prod.mk.inj hput
      obtain ⟨catalog, -, rfl⟩ := onCatalog_eq_ok hregister
      rfl
    · simp only [if_neg hne] at hrun
      obtain ⟨-, rfl⟩ := Prod.mk.inj hrun
      rfl

theorem StandsFor.create_table (hn : 2 ≤ n) (h : w.StandsFor py written d) {info : TableInfo}
    (hcolumns : info.columns ≠ []) (hrun : createTable py info w = (.ok (), w'))
    (hnum : w'.executor.pool.numPages < INVALID_PAGE_ID) :
    ∃ written', d.tables info.name = none ∧ w'.StandsFor py written' (d.create info) := by
  obtain ⟨schema, w₁, hget, h₁⟩ := Effect.bind_eq_ok hrun
  obtain ⟨hschema, rfl⟩ := ofPython_eq_ok hget
  obtain ⟨heap, w₂, hinit, h₂⟩ := Effect.bind_eq_ok h₁
  obtain ⟨_, w₃, hregister, h₃⟩ := Effect.bind_eq_ok h₂
  obtain ⟨_, w₄, hkeep, h₄⟩ := Effect.bind_eq_ok h₃
  obtain ⟨catalog, hcatalog, rfl⟩ := onCatalog_eq_ok hregister
  have hnames : schema.columnNames ≠ [] := by
    rw [Executor.columnNames_of_getSchema hschema, TableInfo.columnNames]
    exact fun hnil => hcolumns (List.map_eq_nil_iff.mp hnil)
  -- what comes after the first page leaves the pool alone
  have hgrows : w₁.Grows w₂ := (grows_onExecutor fun x => grows_init schema x.pool).of_eq hinit
  have hpool : w'.executor.pool = w₂.executor.pool := by
    rw [pool_addPrimaryIndex h₄, ← (Prod.mk.inj hkeep).2]
    rfl
  have hnum₁ : w₁.executor.pool.disk.numPages < INVALID_PAGE_ID := by
    rw [hpool] at hnum
    exact lt_of_le_of_lt hgrows hnum
  obtain ⟨heap', b', written', hcall, hserves, hstarts, -⟩ :=
    HeapFile.init_eq h.serves hn hnames hnum₁
  unfold onExecutor Effect.zoom at hinit
  rw [Executor.onPool_eq hcall] at hinit
  obtain ⟨hheap, rfl⟩ := Prod.mk.inj hinit
  obtain rfl : heap' = heap := Except.ok.inj hheap
  have hexecutor : w₄.executor =
      { catalog, heapFiles := w₁.executor.heapFiles.set info.name heap', pool := b' } := by
    rw [← (Prod.mk.inj hkeep).2]
    rfl
  have hindexes : w₄.indexes = w₁.indexes := by
    rw [← (Prod.mk.inj hkeep).2]
  obtain ⟨hnew, hstands⟩ := h.put_table hschema hserves hstarts hcatalog hexecutor hindexes
  refine ⟨written', hnew, hstands.add_primary_index ?_ h₄⟩
  intro index hindex
  rw [entries_put_self d _ hindex, entries_empty]

theorem Stores.tableExists (h : w.Stores py written d) (name : String) :
    w.executor.catalog.tableExists name = (d.tables name).isSome := by
  have htable := h.tables name
  rw [Catalog.tableExists]
  cases ht : d.tables name with
  | none =>
    rw [ht] at htable
    rw [htable.1]
    rfl
  | some r =>
    rw [ht] at htable
    obtain ⟨info, heap, hknown, -⟩ := htable
    rw [hknown]
    rfl

theorem StandsFor.create (hn : 2 ≤ n) (h : w.StandsFor py written d) {stmt : CreateTableStatement}
    {result : QueryResult} (hrun : execCreateTable py stmt w = (.ok result, w'))
    (hnum : w'.executor.pool.numPages < INVALID_PAGE_ID) (hcolumns : stmt.columns ≠ []) :
    ∃ written' d', w'.StandsFor py written' d' ∧
      SessionAnswers py d (.createTable stmt) (.done result) d' := by
  obtain ⟨taken, w₁, hread, h₁⟩ := Effect.bind_eq_ok hrun
  obtain ⟨htaken, rfl⟩ := Prod.mk.inj hread
  have htaken : (d.tables stmt.name).isSome = taken := by
    rw [← h.toStores.tableExists]
    exact Except.ok.inj htaken
  cases taken with
  | true =>
    rw [if_pos rfl] at h₁
    by_cases hskip : stmt.ifNotExists = true
    · rw [if_pos hskip] at h₁
      cases h₁
      exact ⟨written, d, h, .createSkipped htaken hskip⟩
    · rw [if_neg hskip] at h₁
      cases (Prod.mk.inj h₁).1
  | false =>
    rw [if_neg Bool.false_ne_true] at h₁
    obtain ⟨_, w₂, hcreate, h₂⟩ := Effect.bind_eq_ok h₁
    cases h₂
    obtain ⟨written', hnew, hstands⟩ := h.create_table hn
      (fun hnil => hcolumns (List.map_eq_nil_iff.mp hnil)) hcreate hnum
    exact ⟨written', _, hstands, .create hnew⟩

/-! ## DROP TABLE -/

theorem get?_foldl_erase {trees : Dict String Index} {indexes : List IndexInfo} {other : String}
    (h : other ∉ indexes.map IndexInfo.name) :
    (indexes.foldl (fun trees index => trees.erase index.name) trees).get? other =
      trees.get? other := by
  induction indexes generalizing trees with
  | nil => rfl
  | cons index rest ih =>
    rw [List.map_cons, List.mem_cons, not_or] at h
    rw [List.foldl_cons, ih h.2, Dict.get?_erase, if_neg (Ne.symm h.1)]

theorem tables_drop_ne (d : Contents) {other : String} (h : other ≠ name) :
    (d.drop name).tables other = d.tables other := Function.update_of_ne h ..

theorem entries_drop (d : Contents) {index : IndexInfo} (h : index.tableName ≠ name) :
    (d.drop name).entries index = d.entries index := by
  rw [Contents.entries, tables_drop_ne d h, Contents.entries]

/-- The indexes that are left are on other tables. -/
theorem indexes_drop {indexName : String} {index : IndexInfo}
    (h : (d.drop name).indexes indexName = some index) :
    d.indexes indexName = some index ∧ index.tableName ≠ name := by
  obtain ⟨hindex, hne⟩ := Option.filter_eq_some_iff.mp h
  exact ⟨hindex, of_decide_eq_true hne⟩

theorem dropTable_eq_ok (h : dropTable name w = (.ok (), w')) :
    ∃ catalog, w.executor.catalog.dropTable name = .ok catalog ∧
      w' = {
        executor := {
          catalog
          heapFiles := w.executor.heapFiles.erase name
          pool := w.executor.pool }
        indexes := (w.executor.catalog.getIndexesForTable name).foldl
          (fun trees index => trees.erase index.name) w.indexes
        wal := w.wal } := by
  obtain ⟨indexes, w₁, hread, h₁⟩ := Effect.bind_eq_ok h
  obtain ⟨hindexes, rfl⟩ := Prod.mk.inj hread
  obtain rfl : w.executor.catalog.getIndexesForTable name = indexes := Except.ok.inj hindexes
  obtain ⟨_, w₂, herase, h₂⟩ := Effect.bind_eq_ok h₁
  obtain ⟨_, w₃, hclose, h₃⟩ := Effect.bind_eq_ok h₂
  obtain ⟨-, rfl⟩ := Prod.mk.inj herase
  obtain ⟨-, rfl⟩ := Prod.mk.inj hclose
  obtain ⟨catalog, hdrop, rfl⟩ := onCatalog_eq_ok h₃
  exact ⟨catalog, hdrop, rfl⟩

theorem StandsFor.drop_table (h : w.StandsFor py written d)
    (hrun : dropTable name w = (.ok (), w')) : w'.StandsFor py written (d.drop name) := by
  obtain ⟨catalog, hdrop, rfl⟩ := dropTable_eq_ok hrun
  unfold Catalog.dropTable at hdrop
  split at hdrop
  · have hcatalog := (Except.ok.inj hdrop).symm
    have hopen : ∀ other heap, (w.executor.heapFiles.erase name).get? other = some heap →
        other ≠ name ∧ w.executor.heapFiles.get? other = some heap := by
      intro other heap hheap
      rw [Dict.get?_erase] at hheap
      split at hheap
      · cases hheap
      · next hne => exact ⟨Ne.symm hne, hheap⟩
    refine ⟨⟨h.serves, ?_, ?_, ?_, ?_⟩, ?_⟩
    · exact h.family.closed fun other heap hheap => (hopen other heap hheap).2
    · exact fun other heap hheap => h.packed other heap (hopen other heap hheap).2
    · intro other
      have hget : catalog.getTable other =
          if name = other then none else w.executor.catalog.getTable other := by
        rw [hcatalog]
        exact Dict.get?_erase ..
      by_cases hother : other = name
      · subst hother
        have hnone : (d.drop other).tables other = none := Function.update_self ..
        rw [hnone]
        exact ⟨hget.trans (if_pos rfl), (Dict.get?_erase ..).trans (if_pos rfl)⟩
      · rw [tables_drop_ne d hother]
        apply (h.tables other).congr
        · show catalog.definition other = _
          rw [Catalog.definition, hget, if_neg (Ne.symm hother), Catalog.definition]
        · exact (Dict.get?_erase ..).trans (if_neg (Ne.symm hother))
        · exact fun _ _ => rfl
    · funext indexName
      show catalog.indexes.get? indexName =
        (d.indexes indexName).filter fun index => index.tableName ≠ name
      rw [hcatalog, Dict.get?_filterMap, h.known]
      cases d.indexes indexName with
      | none => rfl
      | some index =>
        by_cases htable : index.tableName = name <;> simp [htable, Option.filter]
    · intro indexName index hindex
      obtain ⟨hindex, htable⟩ := indexes_drop hindex
      obtain ⟨hname, tree, listed, htree, hlists⟩ := h.indexes indexName index hindex
      rw [entries_drop d htable]
      exact ⟨hname, tree, listed,
        (get?_foldl_erase (h.not_mem_names hindex htable)).trans htree, hlists⟩
  · cases hdrop

theorem StandsFor.drop (h : w.StandsFor py written d) {stmt : DropTableStatement}
    {result : QueryResult} (hrun : execDropTable stmt w = (.ok result, w')) :
    ∃ d', w'.StandsFor py written d' ∧
      SessionAnswers py d (.dropTable stmt) (.done result) d' := by
  obtain ⟨taken, w₁, hread, h₁⟩ := Effect.bind_eq_ok hrun
  obtain ⟨htaken, rfl⟩ := Prod.mk.inj hread
  have htaken : (d.tables stmt.name).isSome = taken := by
    rw [← h.toStores.tableExists]
    exact Except.ok.inj htaken
  cases taken with
  | true =>
    rw [if_pos rfl] at h₁
    obtain ⟨_, w₂, hdrop, h₂⟩ := Effect.bind_eq_ok h₁
    cases h₂
    exact ⟨_, h.drop_table hdrop, .drop htaken⟩
  | false =>
    rw [if_neg Bool.false_ne_true] at h₁
    by_cases hskip : stmt.ifExists = true
    · rw [if_pos hskip] at h₁
      cases h₁
      refine ⟨d, h, .dropSkipped ?_ hskip⟩
      rwa [Option.isSome_eq_false_iff, Option.isNone_iff_eq_none] at htaken
    · rw [if_neg hskip] at h₁
      cases (Prod.mk.inj h₁).1

end Writer

end PySQL.Query
