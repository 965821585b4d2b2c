import PySQL.Query.SessionTables

/-!
# What sessions refine

A database that only ever takes rows stands for tables and indexes at every moment of a session, and
each of its answers is one that they allow.
-/

namespace PySQL.Query

open Lib Storage

set_option linter.unusedSectionVars false

variable {n : ℕ} [NeZero n] {written : ℤ → Option Page} {d : Contents} {rt : Runtime Index}

namespace Writer

variable {w w' : Writer n Index}

/-- What a call that succeeds has returned. -/
theorem reply_eq {α : Type} {f : α → SessionReply} {m : Writes n Index α}
    (h : (reply f m w).2.isRaised = false) :
    ∃ a, m w = (.ok a, (reply f m w).1) ∧ (reply f m w).2 = f a := by
  unfold reply at h ⊢
  dsimp only at h ⊢
  cases hm : (m w).1 with
  | error e =>
    rw [hm] at h
    cases h
  | ok a => exact ⟨a, Prod.ext hm rfl, rfl⟩

theorem StandsFor.answers (hn : 2 ≤ n) (hrt : rt.Trees) (h : w.StandsFor rt.py written d)
    (call : SessionCall) (hadmits : w.Admits rt call) :
    ∃ d', SessionAnswers rt.py d call (w.answer rt call).2 d' ∧
      ∃ written', (w.answer rt call).1.StandsFor rt.py written' d' := by
  obtain ⟨hsucceeds, hnum, hsound⟩ := hadmits
  cases call with
  | createTable stmt =>
    obtain ⟨result, hrun, hreply⟩ := reply_eq hsucceeds
    obtain ⟨written', d', hstands, hanswers⟩ := h.create hn hrun hnum hsound
    exact ⟨d', hreply ▸ hanswers, written', hstands⟩
  | dropTable stmt =>
    obtain ⟨result, hrun, hreply⟩ := reply_eq hsucceeds
    obtain ⟨d', hstands, hanswers⟩ := h.drop hrun
    exact ⟨d', hreply ▸ hanswers, written, hstands⟩
  | createIndex stmt =>
    obtain ⟨result, hrun, hreply⟩ := reply_eq hsucceeds
    obtain ⟨hstands, hanswers⟩ := h.create_index hrt hn hrun
    exact ⟨_, hreply ▸ hanswers, written, hstands⟩
  | insert stmt txnId =>
    obtain ⟨result, hrun, hreply⟩ := reply_eq hsucceeds
    obtain ⟨written', d', hstands, hanswers⟩ := h.insert hn hrt hrun hnum hsound
    exact ⟨d', hreply ▸ hanswers, written', hstands⟩
  | scan tableName =>
    obtain ⟨rows, hrun, hreply⟩ := reply_eq hsucceeds
    obtain ⟨hstands, hanswers⟩ := h.scan hn hrun
    exact ⟨d, hreply ▸ hanswers, written, hstands⟩
  | scanIndex indexName =>
    obtain ⟨pairs, hrun, hreply⟩ := reply_eq hsucceeds
    obtain ⟨hstands, hanswers⟩ := h.scan_index hrun hsound
    exact ⟨d, hreply ▸ hanswers, written, hstands⟩

variable {wal : WALManager} {tr : List (Event (Writer n Index) SessionCall SessionReply)}

/-- A session of the database is a session of its tables and indexes. -/
theorem simulates_of_run (hn : 2 ≤ n) (hrt : rt.Trees) (h : (sessionMachine n rt wal).Run tr w) :
    ∃ d, (sessionStore rt.py).Allows (tr.map Event.observed) d ∧
      ∃ written, w.StandsFor rt.py written d := by
  apply Specification.allows_of_run h
  · exact ⟨_, standsFor_start rt.py wal⟩
  · intro w d call hstands hadmits
    obtain ⟨written, hstands⟩ := hstands
    exact hstands.answers hn hrt call hadmits

/-! ## A session -/

theorem trees_asciiRuntime : asciiRuntime.Trees := by
  intro isUnique t v k rid hk
  simp only [asciiRuntime, hk]

def createKeys : CreateTableStatement := { name := "t", columns := [⟨"id", "INTEGER", [.primaryKey]⟩] }

def insertKey7 : InsertStatement := ⟨"t", none, [[.literal (.int 7)]]⟩

theorem getSchema_createKeys : getSchema .ascii (declaredTable .ascii createKeys) =
    .ok ⟨"t", ["id"], [.integer], some "id"⟩ := by
  have htypes : mapE (fun c : ColumnInfo => DataType.fromString .ascii c.type)
      (declaredTable .ascii createKeys).columns = .ok [.integer] := by
    decide +kernel
  rw [getSchema, htypes]
  rfl

/-- A table and an index on it, both scanned, and then a row. -/
def indexedSession : List SessionCall := [
  .createTable createKeys,
  .createIndex { name := "i", table := "t", columns := ["id"] },
  .scanIndex "i", .scan "t",
  .insert insertKey7 1]

def noLog : WALManager := ⟨[], 1, 0, [], .empty⟩

theorem readsBack_of_reread {py : Py} {info : TableInfo} {schema : TableSchema} {values : Row}
    (hschema : getSchema py info = .ok schema)
    (h : (do RecordSerializer.deserialize py schema (← RecordSerializer.serialize py schema values)) =
      .ok values) (hkeyed : ∀ v ∈ values, v.key.isSome) : ReadsBack py info values := by
  intro schema' data hschema' hdata
  obtain rfl := Except.ok.inj (hschema.symm.trans hschema')
  rw [hdata] at h
  exact ⟨values, h, rfl, hkeyed⟩

set_option maxRecDepth 10000 in
theorem indexedSession_legal :
    (sessionMachine 2 asciiRuntime noLog).Legal (.start 2 noLog) indexedSession := by
  refine ⟨⟨by decide +kernel, by decide +kernel, List.cons_ne_nil _ _⟩,
    ⟨by decide +kernel, by decide +kernel, trivial⟩, ⟨by decide +kernel, by decide +kernel, ?_⟩,
    ⟨by decide +kernel, by decide +kernel, trivial⟩, ⟨by decide +kernel, by decide +kernel, ?_⟩,
    trivial⟩
  · show Option.isSome _ = true
    decide +kernel
  · intro info hinfo r hr
    have hknown : ((sessionMachine 2 asciiRuntime noLog).exec (start 2 noLog)
        (indexedSession.take 4)).executor.catalog.definition "t" =
          some (declaredTable .ascii createKeys).definition := by
      decide +kernel
    have hrows : insertedRows asciiRuntime 1 insertKey7
        ((sessionMachine 2 asciiRuntime noLog).exec (start 2 noLog) (indexedSession.take 4)) =
          [⟨[.int 7], [.int 7], ⟨0, 0⟩, 0⟩] := by
      decide +kernel
    have hdef : info.definition = (declaredTable .ascii createKeys).definition := by
      rw [Catalog.definition] at hknown
      exact Option.some.inj ((congrArg (Option.map TableInfo.definition) hinfo).symm.trans hknown)
    have hr : r ∈ [⟨[.int 7], [.int 7], ⟨0, 0⟩, 0⟩] := hrows ▸ hr
    rw [List.mem_singleton.mp hr]
    exact readsBack_of_reread ((getSchema_congr hdef).trans getSchema_createKeys)
      (by decide +kernel) (by decide)

/-! ## Whole sessions -/

/-- At any moment of a session, a table and an index on it can be scanned, and the index lists the
keys of the rows of the table. -/
theorem indexScan_agrees_of_run (hn : 2 ≤ n) (hrt : rt.Trees)
    (h : (sessionMachine n rt wal).Run tr w) {indexName : String} {index : IndexInfo}
    {info : TableInfo} (hindex : w.executor.catalog.indexes.get? indexName = some index)
    (hinfo : w.executor.catalog.getTable index.tableName = some info) :
    ∃ rows pairs, (w.answer rt (.scan index.tableName)).2 = .rows rows ∧
      (w.answer rt (.scanIndex indexName)).2 = .entries pairs ∧
      IndexListing ((⟨info.columns, rows⟩ : Relation).entries index) index.isUnique pairs := by
  obtain ⟨d, -, written, hstands⟩ := simulates_of_run hn hrt h
  rw [hstands.known] at hindex
  have htable := hstands.tables index.tableName
  cases ht : d.tables index.tableName with
  | none =>
    rw [ht] at htable
    rw [htable.1] at hinfo
    cases hinfo
  | some r =>
    rw [ht] at htable
    obtain ⟨info', heap, hknown, hcolumns, -⟩ := htable
    rw [hinfo, Option.some.injEq] at hknown
    subst hknown
    obtain ⟨rows, w', hscan, -, hperm⟩ := hstands.scan_eq hn ht
    obtain ⟨pairs, hpairs, hlisting⟩ := hstands.scanIndex_eq hindex
    refine ⟨rows, pairs, ?_, ?_, hlisting.of_perm ?_⟩
    · simp only [answer, reply, hscan, SessionReply.ofExcept]
    · simp only [answer, reply, hpairs, SessionReply.ofExcept]
    · rw [Contents.entries, ht, Option.elim_some, Relation.entries, Relation.entries,
        Relation.column?, Relation.column?, hcolumns]
      cases index.columns.head?.bind (r.columns.map ColumnInfo.name).idxOf? with
      | none => exact List.Perm.refl _
      | some c => exact hperm.symm.filterMap _

theorem indexScan_agrees_of_run_indexedSession : ∃ rows pairs,
    (((sessionMachine 2 asciiRuntime noLog).exec (.start 2 noLog) indexedSession).answer
      asciiRuntime (.scan "t")).2 = .rows rows ∧
    (((sessionMachine 2 asciiRuntime noLog).exec (.start 2 noLog) indexedSession).answer
      asciiRuntime (.scanIndex "i")).2 = .entries pairs ∧
    IndexListing ((⟨(declaredTable .ascii createKeys).columns, rows⟩ : Relation).entries
      ⟨"i", "t", ["id"], false, false⟩) false pairs := by
  have hindex : ((sessionMachine 2 asciiRuntime noLog).exec (.start 2 noLog)
      indexedSession).executor.catalog.indexes.get? "i" =
        some ⟨"i", "t", ["id"], false, false⟩ := by
    decide +kernel
  have hdef : ((sessionMachine 2 asciiRuntime noLog).exec (.start 2 noLog)
      indexedSession).executor.catalog.definition "t" =
        some (declaredTable .ascii createKeys).definition := by
    decide +kernel
  obtain ⟨info, hinfo, hsame⟩ := Option.map_eq_some_iff.mp hdef
  rw [← (Prod.mk.inj (Prod.mk.inj hsame).2).1]
  have hagrees := indexScan_agrees_of_run le_rfl trees_asciiRuntime
    (Machine.run_of_legal indexedSession_legal) hindex hinfo
  exact hagrees

end Writer

end PySQL.Query
