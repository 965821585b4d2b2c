import PySQL.Storage.Wal

/-!
# What recovery makes of a transaction id

The analysis reads the log once.  Its two sets only grow, while an id leaves the table of active
transactions with each COMMIT and ABORT.
-/

namespace PySQL.Storage

open Lib

def LogRecordType.isData : LogRecordType → Bool
  | .insert | .delete | .update => true
  | _ => false

/-- What begins or ends a transaction. -/
def LogRecordType.isBoundary : LogRecordType → Bool
  | .begin | .commit | .abort => true
  | _ => false

/-- The types of the records of a transaction, of one kind, in order. -/
def typesOf (kind : LogRecordType → Bool) (records : List LogRecord) (txnId : ℤ) :
    List LogRecordType :=
  (records.filter fun r => r.txnId = txnId && kind r.recordType).map LogRecord.recordType

/-- The types of all that a transaction has in the log. -/
abbrev activity (records : List LogRecord) (txnId : ℤ) : List LogRecordType :=
  typesOf (fun t => t.isData || t.isBoundary) records txnId

/-- A transaction owns a BEGIN or a data record. -/
def Owns (records : List LogRecord) (txnId : ℤ) : Prop :=
  ∃ t ∈ activity records txnId, t = .begin ∨ t.isData = true

/-- Every transaction is put into one of the two sets, and none is reported committed whose last
record is not a COMMIT. -/
def Classified (records : List LogRecord) : Prop :=
  let result := WALManager.analyse records
  (∀ txnId, Owns records txnId → (txnId ∈ result.1 ↔ txnId ∉ result.2)) ∧
  ∀ txnId, (activity records txnId).getLast? ≠ some .commit → txnId ∉ result.1

variable {kind : LogRecordType → Bool} {records : List LogRecord} {r : LogRecord} {txnId : ℤ}

theorem typesOf_concat : typesOf kind (records ++ [r]) txnId =
    typesOf kind records txnId ++
      if r.txnId = txnId ∧ kind r.recordType = true then [r.recordType] else [] := by
  rw [typesOf, List.filter_append, List.map_append, typesOf, List.filter_cons, List.filter_nil]
  by_cases h : r.txnId = txnId ∧ kind r.recordType = true
  · rw [if_pos h, if_pos (by simpa using h)]
    rfl
  · rw [if_neg h, if_neg (by simpa using h)]
    rfl

theorem mem_typesOf_concat {t : LogRecordType} : t ∈ typesOf kind (records ++ [r]) txnId ↔
    t ∈ typesOf kind records txnId ∨
      r.txnId = txnId ∧ kind r.recordType = true ∧ t = r.recordType := by
  rw [typesOf_concat, List.mem_append]
  split <;> simp_all

theorem getLast?_typesOf_concat : (typesOf kind (records ++ [r]) txnId).getLast? =
    if r.txnId = txnId ∧ kind r.recordType = true then some r.recordType
    else (typesOf kind records txnId).getLast? := by
  rw [typesOf_concat]
  split
  · exact List.getLast?_concat
  · rw [List.append_nil]

/-! ## The analysis -/

section Step

variable (a : WALManager.Analysis) (r : LogRecord)

theorem record_committed : (a.record r).committed =
    if r.recordType = .commit then insert r.txnId a.committed else a.committed := by
  unfold WALManager.Analysis.record
  cases r.recordType <;> dsimp only <;> first | rfl | (split <;> rfl)

theorem record_aborted : (a.record r).aborted =
    if r.recordType = .abort then insert r.txnId a.aborted else a.aborted := by
  unfold WALManager.Analysis.record
  cases r.recordType <;> dsimp only <;> first | rfl | (split <;> rfl)

/-- A data record leaves its transaction active, if it is. -/
theorem record_active (txnId : ℤ) : ((a.record r).active.get? txnId).isSome =
    if r.txnId = txnId ∧ r.recordType.isBoundary = true then decide (r.recordType = .begin)
    else (a.active.get? txnId).isSome := by
  have hdata : r.recordType.isData = true → ((a.record r).active.get? txnId).isSome =
      (a.active.get? txnId).isSome := by
    intro h
    have hrecord : a.record r = (a.active.get? r.txnId).elim a fun records =>
        { a with active := a.active.set r.txnId (records ++ [r]) } := by
      unfold WALManager.Analysis.record
      cases htype : r.recordType <;> rw [htype] at h <;>
        first | (cases a.active.get? r.txnId <;> rfl) | cases h
    rw [hrecord]
    cases hget : a.active.get? r.txnId with
    | none => rfl
    | some records =>
      rw [Option.elim_some, Dict.get?_set]
      split
      · next heq =>
        rw [← heq, hget]
        rfl
      · rfl
  cases htype : r.recordType with
  | begin =>
    have hrecord : (a.record r).active = a.active.set r.txnId [] := by
      rw [WALManager.Analysis.record, htype]
    rw [hrecord, Dict.get?_set]
    by_cases hid : r.txnId = txnId <;> simp [hid, LogRecordType.isBoundary]
  | commit =>
    have hrecord : (a.record r).active = a.active.erase r.txnId := by
      rw [WALManager.Analysis.record, htype]
    rw [hrecord, Dict.get?_erase]
    by_cases hid : r.txnId = txnId <;> simp [hid, LogRecordType.isBoundary]
  | abort =>
    have hrecord : (a.record r).active = a.active.erase r.txnId := by
      rw [WALManager.Analysis.record, htype]
    rw [hrecord, Dict.get?_erase]
    by_cases hid : r.txnId = txnId <;> simp [hid, LogRecordType.isBoundary]
  | insert => rw [hdata (by rw [htype]; rfl), if_neg (by simp [LogRecordType.isBoundary])]
  | delete => rw [hdata (by rw [htype]; rfl), if_neg (by simp [LogRecordType.isBoundary])]
  | update => rw [hdata (by rw [htype]; rfl), if_neg (by simp [LogRecordType.isBoundary])]
  | checkpoint => rw [WALManager.Analysis.record, htype, if_neg (by simp [LogRecordType.isBoundary])]
  | clr => rw [WALManager.Analysis.record, htype, if_neg (by simp [LogRecordType.isBoundary])]
  | «end» => rw [WALManager.Analysis.record, htype, if_neg (by simp [LogRecordType.isBoundary])]

end Step

/-- What the analysis knows of each id. -/
structure Analysed (records : List LogRecord) (a : WALManager.Analysis) : Prop where
  committed : ∀ txnId, txnId ∈ a.committed ↔ .commit ∈ activity records txnId
  aborted : ∀ txnId, txnId ∈ a.aborted ↔ .abort ∈ activity records txnId
  active : ∀ txnId, (a.active.get? txnId).isSome = true ↔
    (typesOf LogRecordType.isBoundary records txnId).getLast? = some .begin

theorem Analysed.record {a : WALManager.Analysis} (h : Analysed records a) (r : LogRecord) :
    Analysed (records ++ [r]) (a.record r) where
  committed txnId := by
    rw [mem_typesOf_concat, ← h.committed, record_committed]
    split
    · next htype =>
      rw [Finset.mem_insert, htype, or_comm]
      simp [LogRecordType.isBoundary, eq_comm]
    · next htype => simp [Ne.symm htype]
  aborted txnId := by
    rw [mem_typesOf_concat, ← h.aborted, record_aborted]
    split
    · next htype =>
      rw [Finset.mem_insert, htype, or_comm]
      simp [LogRecordType.isBoundary, eq_comm]
    · next htype => simp [Ne.symm htype]
  active txnId := by
    rw [getLast?_typesOf_concat, record_active]
    split
    · rw [decide_eq_true_iff, Option.some_inj]
    · exact h.active txnId

theorem analysed_foldl (records : List LogRecord) :
    Analysed records (records.foldl WALManager.Analysis.record {}) := by
  induction records using List.reverseRecOn with
  | nil => exact ⟨fun _ => by simp [typesOf], fun _ => by simp [typesOf], fun _ => by simp [typesOf]⟩
  | append_singleton records r ih =>
    rw [List.foldl_append]
    exact ih.record r

theorem mem_analyse_committed :
    txnId ∈ (WALManager.analyse records).1 ↔ .commit ∈ activity records txnId :=
  (analysed_foldl records).committed txnId

theorem mem_analyse_aborted : txnId ∈ (WALManager.analyse records).2 ↔
    .abort ∈ activity records txnId ∨
      (typesOf LogRecordType.isBoundary records txnId).getLast? = some .begin := by
  have h := analysed_foldl records
  show txnId ∈ (records.foldl WALManager.Analysis.record {}).aborted ∪ _ ↔ _
  rw [Finset.mem_union, h.aborted, ← h.active, List.mem_toFinset, Dict.get?_isSome]

/-! ## When the classification is right -/

theorem boundaries_eq_filter : typesOf LogRecordType.isBoundary records txnId =
    (activity records txnId).filter LogRecordType.isBoundary := by
  rw [activity, typesOf, typesOf, List.filter_map, List.filter_filter]
  congr 1
  refine List.filter_congr fun r _ => ?_
  cases hb : r.recordType.isBoundary <;> simp [hb]

/-- Recovery classifies the transactions rightly exactly if a COMMIT is the last that an id has in
the log, without an ABORT if the id owns records, and no id has data records only. -/
theorem classified_iff (records : List LogRecord) : Classified records ↔ ∀ txnId,
    (.commit ∈ activity records txnId → (activity records txnId).getLast? = some .commit ∧
      (Owns records txnId → .abort ∉ activity records txnId)) ∧
    (Owns records txnId → ∃ t ∈ activity records txnId, t.isBoundary = true) := by
  unfold Classified
  dsimp only
  simp only [mem_analyse_committed, mem_analyse_aborted]
  constructor
  · rintro ⟨hone, hlast⟩ txnId
    refine ⟨fun hcommit => ⟨?_, fun howns habort => ?_⟩, fun howns => ?_⟩
    · by_contra hne
      exact hlast txnId hne hcommit
    · exact (hone txnId howns).mp hcommit (.inl habort)
    · by_cases hcommit : .commit ∈ activity records txnId
      · exact ⟨_, hcommit, rfl⟩
      · rcases not_not.mp (mt (hone txnId howns).mpr hcommit) with habort | hbegin
        · exact ⟨_, habort, rfl⟩
        · rw [boundaries_eq_filter] at hbegin
          obtain ⟨hmem, hboundary⟩ := List.mem_filter.mp (List.mem_of_getLast? hbegin)
          exact ⟨_, hmem, hboundary⟩
  · intro h
    refine ⟨fun txnId howns => ⟨fun hcommit hmem => ?_, fun hmem => ?_⟩, fun txnId hne hcommit => ?_⟩
    · obtain ⟨hlast, habort⟩ := (h txnId).1 hcommit
      rcases hmem with hmem | hbegin
      · exact habort howns hmem
      · -- the last boundary is the COMMIT
        obtain ⟨init, hinit⟩ := List.getLast?_eq_some_iff.mp hlast
        rw [boundaries_eq_filter, hinit, List.filter_append,
          List.filter_cons_of_pos (by rfl), List.filter_nil, List.getLast?_concat] at hbegin
        cases hbegin
    · by_contra hcommit
      rw [not_or] at hmem
      obtain ⟨t, ht, hboundary⟩ := (h txnId).2 howns
      have hbegins : ∀ u ∈ typesOf LogRecordType.isBoundary records txnId, u = .begin := by
        intro u hu
        rw [boundaries_eq_filter, List.mem_filter] at hu
        obtain ⟨hu, hub⟩ := hu
        cases u with
        | begin => rfl
        | commit => exact absurd hu hcommit
        | abort => exact absurd hu hmem.1
        | insert => cases hub
        | delete => cases hub
        | update => cases hub
        | checkpoint => cases hub
        | clr => cases hub
        | «end» => cases hub
      have hne : typesOf LogRecordType.isBoundary records txnId ≠ [] := by
        rw [boundaries_eq_filter]
        exact List.ne_nil_of_mem (List.mem_filter.mpr ⟨ht, hboundary⟩)
      refine hmem.2 ?_
      rw [List.getLast?_eq_some_getLast hne, hbegins _ (List.getLast_mem hne)]
    · exact hne ((h txnId).1 hcommit).1

/-- The log of a session that crashed after an INSERT and a checkpoint. -/
theorem loneInsert_unclassified : ¬∀ records : List LogRecord, Classified records := by
  intro h
  obtain ⟨hone, -⟩ := h [{ txnId := 1, recordType := .insert }, { recordType := .checkpoint }]
  exact absurd (hone 1 ⟨.insert, by decide, .inr rfl⟩) (by decide)

end PySQL.Storage
