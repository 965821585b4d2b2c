import PySQL.Query.Catalog

/-!
# The catalog and its file

The catalog is written to its file after every change.  The list of indexes that each table keeps is
not written: a new catalog on the same file links the indexes of the global map to their tables.
-/

namespace PySQL.Query

open Lib

/-! ## Saving and loading -/

/-- What the file has of a table. -/
structure TableRecord where
  name : String
  columns : List ColumnInfo
  primaryKey : Option String
  firstPageId : ℤ
  autoIncrementCounter : ℤ
  rowCountEstimate : ℤ

structure CatalogFile where
  tables : Dict String TableRecord
  indexes : Dict String IndexInfo

def TableInfo.toRecord (t : TableInfo) : TableRecord where
  name := t.name
  columns := t.columns
  primaryKey := t.primaryKey
  firstPageId := t.firstPageId
  autoIncrementCounter := t.autoIncrementCounter
  rowCountEstimate := t.rowCountEstimate

/-- The table that is loaded; its list of indexes is empty at first. -/
def TableRecord.toInfo (r : TableRecord) : TableInfo where
  name := r.name
  columns := r.columns
  primaryKey := r.primaryKey
  firstPageId := r.firstPageId
  indexes := []
  autoIncrementCounter := r.autoIncrementCounter
  rowCountEstimate := r.rowCountEstimate

/-- `_save` -/
def Catalog.save (c : Catalog) : CatalogFile where
  tables := c.tables.map fun _ t => t.toRecord
  indexes := c.indexes

/-- One turn of the second loop of `_load`. -/
def Catalog.loadIndex (c : Catalog) (entry : String × IndexInfo) : Catalog :=
  updateTable { c with indexes := c.indexes.set entry.1 entry.2 } entry.2.tableName
    fun t => { t with indexes := t.indexes ++ [entry.2] }

/-- `_load` -/
def CatalogFile.load (f : CatalogFile) : Catalog :=
  f.indexes.items.foldl Catalog.loadIndex
    { tables := f.tables.map fun _ r => r.toInfo, indexes := .empty }

/-! ## Calls -/

inductive CatalogCall where
  | createTable (info : TableInfo)
  | dropTable (name : String)
  | createIndex (info : IndexInfo)
  | updateTableStats (tableName : String) (rowCount : ℤ)
  | incrementAutoCounter (tableName : String)
  | updateFirstPageId (tableName : String) (pageId : ℤ)

/-- A catalog and its file, which does not exist before the first save. -/
structure CatalogStore where
  catalog : Catalog
  file : Option CatalogFile

namespace CatalogStore

/-- `Catalog(path)` -/
def opened (file : Option CatalogFile) : CatalogStore where
  catalog := file.elim .empty CatalogFile.load
  file := file

def saved (c : Catalog) : CatalogStore := { catalog := c, file := some c.save }

/-- A call that raises, or names a table to update that does not exist, changes nothing. -/
def step (s : CatalogStore) : CatalogCall → CatalogStore
  | .createTable info => (s.catalog.createTable info).toOption.elim s saved
  | .dropTable name => (s.catalog.dropTable name).toOption.elim s saved
  | .createIndex info => (s.catalog.createIndex info).toOption.elim s saved
  | .updateTableStats tableName rowCount =>
    if s.catalog.tableExists tableName then saved (s.catalog.updateTableStats tableName rowCount)
    else s
  | .incrementAutoCounter tableName =>
    (s.catalog.incrementAutoCounter tableName).toOption.elim s fun counted => saved counted.1
  | .updateFirstPageId tableName pageId =>
    if s.catalog.tableExists tableName then saved (s.catalog.updateFirstPageId tableName pageId)
    else s

/-- In every state that the calls reach, a new catalog on the file is the catalog in memory. -/
def Reloads (s : CatalogStore) : List CatalogCall → Prop
  | [] => (opened s.file).catalog = s.catalog
  | call :: calls => (opened s.file).catalog = s.catalog ∧ (s.step call).Reloads calls

end CatalogStore

/-- A table that is created comes with the indexes that the catalog already has for its name. -/
def CatalogCall.BringsIndexes (c : Catalog) : CatalogCall → Prop
  | createTable info =>
    c.tableExists info.name = false → info.indexes = c.getIndexesForTable info.name
  | _ => True

/-- Every call of the run does. -/
def CatalogStore.BringIndexes (s : CatalogStore) : List CatalogCall → Prop
  | [] => True
  | call :: calls => call.BringsIndexes s.catalog ∧ (s.step call).BringIndexes calls

/-! ## What is loaded -/

/-- The list of each table holds the indexes of the global map that name the table. -/
def Catalog.Linked (c : Catalog) : Prop :=
  ∀ name t, c.getTable name = some t → t.indexes = c.getIndexesForTable name

theorem tables_updateTable (c : Catalog) (name : String) (f : TableInfo → TableInfo) :
    (c.updateTable name f).tables = c.tables.map fun k t => if k = name then f t else t := by
  unfold Catalog.updateTable
  cases hname : c.getTable name with
  | none =>
    refine (Dict.map_eq_self_iff.mpr fun k t hk => ?_).symm
    refine if_neg fun heq => ?_
    subst heq
    rw [Catalog.getTable, hk] at hname
    cases hname
  | some info =>
    show c.tables.set name (f info) = _
    rw [Dict.set_eq_map hname]
    refine Dict.map_congr fun k t hk => ?_
    split
    · next heq =>
      subst heq
      rw [Catalog.getTable, hk] at hname
      rw [Option.some.inj hname]
    · rfl

@[simp] theorem indexes_updateTable (c : Catalog) (name : String) (f : TableInfo → TableInfo) :
    (c.updateTable name f).indexes = c.indexes := by
  unfold Catalog.updateTable
  split <;> rfl

/-- What the file and some indexes of its map make of a table. -/
def TableRecord.linked (entries : List (String × IndexInfo)) (name : String) (r : TableRecord) :
    TableInfo :=
  { r.toInfo with indexes := (entries.map Prod.snd).filter fun idx => idx.tableName = name }

/-- The loop of `_load` links every index to its table. -/
theorem foldl_loadIndex {tables : Dict String TableRecord} {c : Catalog}
    {entries rest : List (String × IndexInfo)} (htables : c.tables = tables.map (TableRecord.linked entries))
    (hindexes : c.indexes.items = entries) (hnodup : ((entries ++ rest).map Prod.fst).Nodup) :
    (rest.foldl Catalog.loadIndex c).tables = tables.map (TableRecord.linked (entries ++ rest)) ∧
      (rest.foldl Catalog.loadIndex c).indexes.items = entries ++ rest := by
  induction rest generalizing c entries with
  | nil =>
    rw [List.append_nil]
    exact ⟨htables, hindexes⟩
  | cons entry rest ih =>
    have hcut : entries ++ entry :: rest = (entries ++ [entry]) ++ rest := by simp
    rw [hcut] at hnodup ⊢
    rw [List.foldl_cons]
    refine ih ?_ ?_ hnodup
    · rw [Catalog.loadIndex, tables_updateTable]
      show c.tables.map _ = _
      rw [htables, Dict.map_map]
      refine Dict.map_congr fun k r _ => ?_
      simp only [TableRecord.linked, List.map_append, List.map_cons, List.map_nil,
        List.filter_append]
      by_cases hk : k = entry.2.tableName
      · subst hk
        simp
      · rw [if_neg hk]
        simp [Ne.symm hk]
    · rw [Catalog.loadIndex, indexes_updateTable]
      show (c.indexes.set entry.1 entry.2).items = _
      rw [Dict.items_set_of_not_mem ?_, hindexes]
      have hfresh : entry.1 ∉ entries.map Prod.fst := by
        rw [List.map_append, List.map_append] at hnodup
        have hdis := (List.nodup_append.mp (List.nodup_append.mp hnodup).1).2.2
        exact fun hmem => hdis _ hmem _ (List.mem_singleton_self _) rfl
      rw [Dict.get?, hindexes]
      exact Dict.lookup_eq_none_of_not_mem hfresh

theorem Catalog.ext_items {c c' : Catalog} (htables : c.tables = c'.tables)
    (hindexes : c.indexes.items = c'.indexes.items) : c = c' := by
  cases c
  cases c'
  obtain rfl := htables
  obtain rfl := Dict.ext_items hindexes
  rfl

theorem load_eq (f : CatalogFile) :
    f.load.tables = f.tables.map (TableRecord.linked f.indexes.items) ∧
      f.load.indexes.items = f.indexes.items := by
  have hnodup : (([] ++ f.indexes.items).map Prod.fst).Nodup := f.indexes.nodup
  exact foldl_loadIndex rfl rfl hnodup

/-- The catalog with every table's list made anew. -/
def Catalog.relink (c : Catalog) : Catalog where
  tables := c.tables.map fun name t => { t with indexes := c.getIndexesForTable name }
  indexes := c.indexes

theorem tables_relink (c : Catalog) : c.relink.tables =
    c.tables.map fun name t => { t with indexes := c.getIndexesForTable name } := rfl

/-- Saving and loading gives every table the indexes that name it. -/
theorem load_save (c : Catalog) : c.save.load = c.relink := by
  obtain ⟨htables, hindexes⟩ := load_eq c.save
  refine Catalog.ext_items ?_ hindexes
  rw [htables, Catalog.save, Dict.map_map]
  rfl

theorem relink_eq_self_iff {c : Catalog} : c.relink = c ↔ c.Linked := by
  constructor
  · intro h name t ht
    have htables := congrArg Catalog.tables h
    rw [tables_relink] at htables
    have hinfo := Dict.map_eq_self_iff.mp htables name t ht
    exact (congrArg TableInfo.indexes hinfo).symm
  · intro h
    refine Catalog.ext_items ?_ rfl
    rw [tables_relink]
    refine Dict.map_eq_self_iff.mpr fun name t ht => ?_
    rw [← h name t ht]

/-- A catalog that was loaded is linked. -/
theorem linked_load (f : CatalogFile) : f.load.Linked := by
  obtain ⟨htables, hindexes⟩ := load_eq f
  intro name t ht
  rw [Catalog.getTable, htables, Dict.get?_map] at ht
  obtain ⟨r, -, rfl⟩ := Option.map_eq_some_iff.mp ht
  rw [Catalog.getIndexesForTable, Dict.values, hindexes]
  rfl

/-! ## What the calls keep -/

section Calls

variable {c c' : Catalog} {name : String}

theorem linked_updateTable {f : TableInfo → TableInfo} (hf : ∀ t, (f t).indexes = t.indexes)
    (h : c.Linked) : (c.updateTable name f).Linked := by
  intro other t ht
  have hmap : (c.updateTable name f).getIndexesForTable other = c.getIndexesForTable other := by
    rw [Catalog.getIndexesForTable, indexes_updateTable, Catalog.getIndexesForTable]
  rw [getTable_updateTable] at ht
  rw [hmap]
  split at ht
  · obtain ⟨old, hold, rfl⟩ := Option.map_eq_some_iff.mp ht
    rw [hf]
    exact h other old hold
  · exact h other t ht

theorem linked_createTable {info : TableInfo} (h : c.Linked) (hok : c.createTable info = .ok c') :
    c'.Linked ↔ info.indexes = c.getIndexesForTable info.name := by
  rw [Catalog.createTable] at hok
  split at hok
  · cases hok
  obtain rfl := Except.ok.inj hok
  constructor
  · exact fun hlinked => hlinked info.name info (Dict.get?_set_self _ _ _)
  · intro hinfo other t ht
    rcases Dict.get?_set_cases ht with ⟨rfl, rfl⟩ | ⟨-, hold⟩
    · exact hinfo
    · exact h other t hold

theorem values_filter_ne (d : Dict String IndexInfo) (name : String) :
    (d.filterMap fun _ idx => if idx.tableName = name then none else some idx).values =
      d.values.filter fun idx => idx.tableName ≠ name := by
  show (d.items.filterMap fun p =>
    (if p.2.tableName = name then none else some p.2).map (p.1, ·)).map Prod.snd =
      (d.items.map Prod.snd).filter fun idx => idx.tableName ≠ name
  induction d.items with
  | nil => rfl
  | cons p ps ih =>
    by_cases hp : p.2.tableName = name
    · simpa [hp] using ih
    · simpa [hp] using ih

theorem linked_dropTable (h : c.Linked) (hok : c.dropTable name = .ok c') : c'.Linked := by
  rw [Catalog.dropTable] at hok
  split at hok
  · obtain rfl := Except.ok.inj hok
    intro other t ht
    rw [Catalog.getTable, Dict.get?_erase] at ht
    split at ht
    · cases ht
    next hne =>
    rw [h other t ht, Catalog.getIndexesForTable, Catalog.getIndexesForTable, values_filter_ne,
      List.filter_filter]
    refine List.filter_congr fun idx _ => ?_
    by_cases hidx : idx.tableName = other
    · simp [hidx, Ne.symm hne]
    · simp [hidx]
  · cases hok

theorem linked_createIndex {info : IndexInfo} (h : c.Linked) (hok : c.createIndex info = .ok c') :
    c'.Linked := by
  rw [Catalog.createIndex] at hok
  split at hok
  · cases hok
  next hfresh =>
  obtain rfl := Except.ok.inj hok
  have hnone : c.indexes.get? info.name = none := by
    simpa using hfresh
  intro other t ht
  -- the new index is the last of the map
  have hmap : (Catalog.updateTable { c with indexes := c.indexes.set info.name info } info.tableName
      fun t => { t with indexes := t.indexes ++ [info] }).getIndexesForTable other =
      c.getIndexesForTable other ++ if info.tableName = other then [info] else [] := by
    rw [Catalog.getIndexesForTable, indexes_updateTable, Catalog.getIndexesForTable]
    rw [Dict.values, Dict.items_set_of_not_mem hnone, List.map_append, List.filter_append]
    congr 1
    by_cases hname : info.tableName = other <;> simp [hname]
  rw [getTable_updateTable] at ht
  rw [hmap]
  split at ht
  · next heq =>
    obtain ⟨old, hold, rfl⟩ := Option.map_eq_some_iff.mp ht
    rw [if_pos heq.symm, ← h other old hold]
  · next hne =>
    rw [if_neg (Ne.symm hne), List.append_nil]
    exact h other t ht

end Calls

/-! ## Runs -/

namespace CatalogStore

variable {s : CatalogStore}

theorem reload_saved {c : Catalog} : (opened (saved c).file).catalog = (saved c).catalog ↔
    c.Linked := by
  rw [← relink_eq_self_iff, ← load_save]
  rfl

/-- What a call leaves: the store as it was, or a saved catalog, which is linked unless a table was
created without the indexes that are there for it. -/
theorem step_cases (h : s.catalog.Linked) (call : CatalogCall) :
    (s.step call = s ∧ call.BringsIndexes s.catalog) ∨
      ∃ c, s.step call = saved c ∧ (c.Linked ↔ call.BringsIndexes s.catalog) := by
  cases call with
  | createTable info =>
    cases hok : s.catalog.createTable info with
    | error e =>
      have hexists : s.catalog.tableExists info.name = true := by
        by_contra hnot
        rw [Catalog.createTable, if_neg hnot] at hok
        cases hok
      refine .inl ⟨by rw [step, hok]; rfl, fun hfresh => ?_⟩
      rw [hexists] at hfresh
      cases hfresh
    | ok c =>
      have hfresh : s.catalog.tableExists info.name = false := by
        by_contra hnot
        rw [Catalog.createTable, if_pos (by simpa using hnot)] at hok
        cases hok
      refine .inr ⟨c, by rw [step, hok]; rfl, (linked_createTable h hok).trans ?_⟩
      exact ⟨fun heq _ => heq, fun hbrings => hbrings hfresh⟩
  | dropTable name =>
    cases hok : s.catalog.dropTable name with
    | error e => exact .inl ⟨by rw [step, hok]; rfl, trivial⟩
    | ok c =>
      exact .inr ⟨c, by rw [step, hok]; rfl, iff_of_true (linked_dropTable h hok) trivial⟩
  | createIndex info =>
    cases hok : s.catalog.createIndex info with
    | error e => exact .inl ⟨by rw [step, hok]; rfl, trivial⟩
    | ok c =>
      exact .inr ⟨c, by rw [step, hok]; rfl, iff_of_true (linked_createIndex h hok) trivial⟩
  | updateTableStats tableName rowCount =>
    rw [step]
    split
    · exact .inr ⟨_, rfl, iff_of_true (linked_updateTable (fun _ => rfl) h) trivial⟩
    · exact .inl ⟨rfl, trivial⟩
  | incrementAutoCounter tableName =>
    rw [step, Catalog.incrementAutoCounter]
    cases hinfo : s.catalog.getTable tableName with
    | none => exact .inl ⟨rfl, trivial⟩
    | some info => exact .inr ⟨_, rfl, iff_of_true (linked_updateTable (fun _ => rfl) h) trivial⟩
  | updateFirstPageId tableName pageId =>
    rw [step]
    split
    · exact .inr ⟨_, rfl, iff_of_true (linked_updateTable (fun _ => rfl) h) trivial⟩
    · exact .inl ⟨rfl, trivial⟩

theorem reloads_of_linked (calls : List CatalogCall) (h : s.catalog.Linked)
    (hreload : (opened s.file).catalog = s.catalog) : s.Reloads calls ↔ s.BringIndexes calls := by
  induction calls generalizing s with
  | nil => exact iff_of_true hreload trivial
  | cons call calls ih =>
    have hhead : ∀ {t : CatalogStore}, t.Reloads calls → (opened t.file).catalog = t.catalog := by
      intro t ht
      cases calls with
      | nil => exact ht
      | cons next calls => exact ht.1
    show (opened s.file).catalog = s.catalog ∧ (s.step call).Reloads calls ↔
      call.BringsIndexes s.catalog ∧ (s.step call).BringIndexes calls
    rcases step_cases h call with ⟨hsame, hbrings⟩ | ⟨c, hsaved, hiff⟩
    · rw [hsame, ih h hreload]
      exact and_congr_left' (iff_of_true hreload hbrings)
    · rw [hsaved, ← hiff]
      constructor
      · rintro ⟨-, hrun⟩
        -- what was saved reloads, so it is linked, and the rest of the run follows
        have hlinked := reload_saved.mp (hhead hrun)
        exact ⟨hlinked, (ih hlinked (hhead hrun)).mp hrun⟩
      · rintro ⟨hlinked, hrun⟩
        exact ⟨hreload, (ih hlinked (reload_saved.mpr hlinked)).mpr hrun⟩

/-- A new catalog on the file is the catalog in memory, in every state of a run, if and only if every
table that is created comes with the indexes that are there for it. -/
theorem reloads_iff (file : Option CatalogFile) (calls : List CatalogCall) :
    (opened file).Reloads calls ↔ (opened file).BringIndexes calls := by
  refine reloads_of_linked calls ?_ rfl
  cases file with
  | none => exact fun name t ht => nomatch ht
  | some f => exact linked_load f

/-- An index may be created before its table: it is missing from the table's list until the file is
loaded. -/
theorem not_reloads_indexFirst : ¬ (opened none).Reloads
    [.createIndex { name := "i", tableName := "t", columns := ["a"] },
      .createTable { name := "t", columns := [] }] := by
  intro h
  have hlists := congrArg (fun c => (c.getTable "t").map TableInfo.indexes) h.2.2
  revert hlists
  decide +kernel

end CatalogStore

end PySQL.Query
