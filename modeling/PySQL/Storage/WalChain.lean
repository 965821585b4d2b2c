import Mathlib.Data.List.TakeWhile
import PySQL.Storage.WalNumbers

/-!
# The undo chains of the log

All transactions share one counter, one buffer and one file; the chain of a transaction runs through
the `prev_lsn` of its records.  Every call appends a record of its own.
-/

namespace PySQL.Storage

open Lib

/-- The record as `append` numbers and links it. -/
def numbered (w : WALManager) (record : LogRecord) : LogRecord :=
  { record with lsn := w.nextLsn, prevLsn := (w.txnTable.get? record.txnId).getD 0 }

/-- The records that are met from a number along `prev_lsn`, down to 0. -/
def follow (records : List LogRecord) : ℕ → ℤ → Option (List LogRecord)
  | 0, lsn => if lsn = 0 then some [] else none
  | fuel + 1, lsn =>
    if lsn = 0 then some []
    else
      match records.find? fun r => r.lsn = lsn with
      | none => none
      | some r => (follow records fuel r.prevLsn).map (r :: ·)

/-- What holds of a log between two calls. -/
structure Threaded (records : List LogRecord) (w : WALManager) : Prop where
  next : w.nextLsn = records.length + 1
  lsns : ∀ (i : ℕ) r, records[i]? = some r → r.lsn = i + 1
  /-- From the last number of a transaction to 0 one meets its records, the latest first. -/
  chain : ∀ txnId, follow records records.length ((w.txnTable.get? txnId).getD 0) =
    some (records.filter fun r => r.txnId = txnId).reverse
  /-- The file holds the first records and the buffer the others. -/
  stored : ∃ k ≤ records.length, serializeAll (records.take k) = some w.file ∧
    w.buffer = records.drop k ∧
    w.flushedLsn = ((records.take k).getLast?.map LogRecord.lsn).getD 0

variable {records : List LogRecord} {w : WALManager} {r : LogRecord}

/-! ## Chains -/

theorem follow_append {fuel : ℕ} {lsn : ℤ} {found : List LogRecord} (more : List LogRecord)
    (h : follow records fuel lsn = some found) :
    follow (records ++ more) fuel lsn = some found := by
  induction fuel generalizing lsn found with
  | zero => exact h
  | succ fuel ih =>
    rw [follow] at h ⊢
    split at h
    · next hzero => rwa [if_pos hzero]
    · next hzero =>
      rw [if_neg hzero, List.find?_append]
      split at h
      · cases h
      · next r hr =>
        obtain ⟨rest, hrest, rfl⟩ := Option.map_eq_some_iff.mp h
        rw [hr, Option.some_or]
        dsimp only
        rw [ih hrest]
        rfl

theorem follow_succ {fuel : ℕ} {lsn : ℤ} {found : List LogRecord}
    (h : follow records fuel lsn = some found) : follow records (fuel + 1) lsn = some found := by
  induction fuel generalizing lsn found with
  | zero =>
    unfold follow at h ⊢
    split at h
    · next hzero => rwa [if_pos hzero]
    · cases h
  | succ fuel ih =>
    rw [follow] at h
    unfold follow
    split at h
    · next hzero => rwa [if_pos hzero]
    · next hzero =>
      rw [if_neg hzero]
      cases hfind : records.find? fun r => r.lsn = lsn with
      | none =>
        rw [hfind] at h
        cases h
      | some r =>
        rw [hfind] at h
        obtain ⟨rest, hrest, rfl⟩ := Option.map_eq_some_iff.mp h
        dsimp only
        rw [ih hrest]
        rfl

theorem Threaded.find?_next (h : Threaded records w) :
    records.find? (fun r => r.lsn = w.nextLsn) = none := by
  refine List.find?_eq_none.mpr fun r hr heq => ?_
  obtain ⟨i, hi⟩ := List.mem_iff_getElem?.mp hr
  have hlsn := h.lsns i r hi
  have hlt := (List.getElem?_eq_some_iff.mp hi).1
  have hnext := h.next
  rw [decide_eq_true_iff] at heq
  omega

theorem Threaded.append (h : Threaded records w) (record : LogRecord) :
    Threaded (records ++ [numbered w record]) (w.append record).1 where
  next := by
    show w.nextLsn + 1 = _
    rw [h.next, List.length_append, List.length_singleton]
    push_cast
    rfl
  lsns i r hr := by
    rcases Nat.lt_or_ge i records.length with hlt | hge
    · rw [List.getElem?_append_left hlt] at hr
      exact h.lsns i r hr
    · rw [List.getElem?_append_right hge, List.getElem?_singleton] at hr
      split at hr
      · next hi =>
        obtain rfl := Option.some.inj hr
        show w.nextLsn = _
        rw [h.next]
        omega
      · cases hr
  chain txnId := by
    have hpos : w.nextLsn ≠ 0 := by
      rw [h.next]
      omega
    show follow _ _ (((w.txnTable.set record.txnId w.nextLsn).get? txnId).getD 0) = _
    rw [Dict.get?_set, List.length_append, List.length_singleton, List.filter_append]
    by_cases htxn : record.txnId = txnId
    · -- the new record is the head of its chain
      have hfilter : [numbered w record].filter (fun r => r.txnId = txnId) =
          [numbered w record] := List.filter_eq_self.mpr fun r hr => by
        obtain rfl := List.mem_singleton.mp hr
        exact decide_eq_true htxn
      have hfind : [numbered w record].find? (fun r => r.lsn = w.nextLsn) =
          some (numbered w record) := by
        simp [numbered]
      rw [if_pos htxn, Option.getD_some, hfilter, List.reverse_concat, follow, if_neg hpos,
        List.find?_append, h.find?_next, Option.none_or, hfind]
      have hrest := follow_append [numbered w record] (h.chain record.txnId)
      dsimp only
      rw [show (numbered w record).prevLsn = (w.txnTable.get? record.txnId).getD 0 from rfl,
        hrest, htxn]
      rfl
    · have hfilter : [numbered w record].filter (fun r => r.txnId = txnId) = [] :=
        List.filter_eq_nil_iff.mpr fun r hr => by
          obtain rfl := List.mem_singleton.mp hr
          exact fun h => htxn (of_decide_eq_true h)
      rw [if_neg htxn, hfilter, List.append_nil]
      exact follow_succ (follow_append _ (h.chain txnId))
  stored := by
    obtain ⟨k, hk, hfile, hbuffer, hflushed⟩ := h.stored
    refine ⟨k, by rw [List.length_append]; omega, ?_⟩
    rw [List.take_append_of_le_length hk, List.drop_append_of_le_length hk, ← hbuffer]
    exact ⟨hfile, rfl, hflushed⟩

/-! ## Flushing -/

theorem LogRecord.serialize_isSome {r : LogRecord} : r.serialize.isSome ↔ r.InRange := by
  unfold serialize
  split
  · next h => exact iff_of_true rfl h
  · next h => exact iff_of_false Bool.false_ne_true h

theorem LogRecord.length_serialize_pos {r : LogRecord} (h : r.InRange) :
    0 < (r.serialize.getD []).length := by
  unfold serialize
  rw [if_pos h, Option.getD_some, List.length_append, length_packBE]
  omega

theorem serializeAll_append {first second : List LogRecord} {data : Bytes}
    (hfirst : serializeAll first = some data) (hsecond : ∀ r ∈ second, r.InRange) :
    serializeAll (first ++ second) =
      some (data ++ second.flatMap fun r => r.serialize.getD []) := by
  induction first generalizing data with
  | nil =>
    cases hfirst
    rw [List.nil_append, List.nil_append]
    induction second with
    | nil => rfl
    | cons r second ih =>
      obtain ⟨bytes, hbytes⟩ := Option.isSome_iff_exists.mp
        (LogRecord.serialize_isSome.mpr (hsecond r List.mem_cons_self))
      rw [serializeAll, hbytes, ih fun r hr => hsecond r (List.mem_cons_of_mem _ hr)]
      simp only [List.flatMap_cons, hbytes, Option.getD_some]
  | cons r first ih =>
    unfold serializeAll at hfirst
    split at hfirst
    · next bytes rest hbytes hrest =>
      cases hfirst
      rw [List.cons_append, serializeAll, hbytes, ih hrest]
      simp only [List.append_assoc]
    · cases hfirst

/-- A flush of these records writes all of them, or none. -/
def Whole (records : List LogRecord) : Prop :=
  (∀ r ∈ records, r.InRange) ∨ ∃ r ∈ records.head?, ¬ r.InRange

theorem WALManager.writable_eq_self_iff {records : List LogRecord} :
    writable records = records ↔ ∀ r ∈ records, r.InRange := by
  rw [writable, List.takeWhile_eq_self_iff]
  exact forall₂_congr fun r _ => LogRecord.serialize_isSome

theorem WALManager.flush_of_not_all (h : ¬ ∀ r ∈ w.buffer, r.InRange) : w.flush.1 =
    { w with file := w.file ++ (writable w.buffer).flatMap fun r => r.serialize.getD [] } := by
  unfold flush
  simp only
  rw [if_neg fun heq => h (writable_eq_self_iff.mp heq)]

theorem WALManager.writable_eq_nil {records : List LogRecord}
    (h : ∃ r ∈ records.head?, ¬ r.InRange) : writable records = [] := by
  cases records with
  | nil => rfl
  | cons r records =>
    obtain ⟨r', hr, hout⟩ := h
    obtain rfl := Option.some.inj hr
    exact List.takeWhile_cons_of_neg fun hsome => hout (LogRecord.serialize_isSome.mp hsome)

theorem WALManager.flush_txnTable (w : WALManager) : w.flush.1.txnTable = w.txnTable := by
  unfold flush
  simp only
  split
  · split <;> rfl
  · rfl

/-- A flush that writes all or nothing keeps what holds of the log. -/
theorem Threaded.flush (h : Threaded records w) (hwhole : Whole w.buffer) :
    Threaded records w.flush.1 where
  next := by
    rw [w.flush_nextLsn]
    exact h.next
  lsns := h.lsns
  chain := by
    rw [w.flush_txnTable]
    exact h.chain
  stored := by
    obtain ⟨k, hk, hfile, hbuffer, hflushed⟩ := h.stored
    unfold WALManager.flush
    simp only
    rcases hwhole with hall | hnone
    · rw [if_pos (WALManager.writable_eq_self_iff.mpr hall),
        WALManager.writable_eq_self_iff.mpr hall]
      cases hlast : w.buffer.getLast? with
      | none => exact ⟨k, hk, hfile, hbuffer, hflushed⟩
      | some last =>
        -- the file takes the whole buffer
        refine ⟨records.length, le_rfl, ?_, ?_, ?_⟩
        · have hsplit : records = records.take k ++ w.buffer := by
            rw [hbuffer, List.take_append_drop]
          rw [List.take_length]
          conv => lhs; rw [hsplit]
          exact serializeAll_append hfile hall
        · rw [List.drop_length]
        · have hgetLast : records.getLast? = some last := by
            rw [← List.take_append_drop k records, ← hbuffer, List.getLast?_append, hlast,
              Option.some_or]
          rw [List.take_length, hgetLast]
          rfl
    · have hne : w.buffer ≠ [] := by
        obtain ⟨r, hr, -⟩ := hnone
        exact List.ne_nil_of_mem (List.mem_of_mem_head? hr)
      rw [WALManager.writable_eq_nil hnone, if_neg (Ne.symm hne), List.flatMap_nil,
        List.append_nil]
      exact ⟨k, hk, hfile, hbuffer, hflushed⟩

/-- A flush that keeps what holds of the log writes all or nothing. -/
theorem Threaded.whole (h : Threaded records w) (hnext : Threaded records w.flush.1) :
    Whole w.buffer := by
  by_contra hpart
  obtain ⟨hsome, hfirst⟩ := not_or.mp hpart
  obtain ⟨k, hk, hfile, hbuffer, -⟩ := h.stored
  obtain ⟨k', hk', hfile', hbuffer', -⟩ := hnext.stored
  rw [WALManager.flush_of_not_all hsome] at hfile' hbuffer'
  cases hcons : w.buffer with
  | nil =>
    exact hsome (by rw [hcons]; exact fun _ hr => nomatch hr)
  | cons r rest =>
    have hr : r.InRange := by
      by_contra hout
      exact hfirst ⟨r, by rw [hcons]; rfl, hout⟩
    -- the buffer is not empty, so it starts where it started before
    have hsame : k' = k := by
      have hlength := congrArg List.length (hbuffer.symm.trans hbuffer')
      have hpos := congrArg List.length (hbuffer.symm.trans hcons)
      rw [List.length_drop, List.length_drop] at hlength
      rw [List.length_drop, List.length_cons] at hpos
      omega
    subst hsame
    have hwrites : WALManager.writable (r :: rest) = r :: WALManager.writable rest :=
      List.takeWhile_cons_of_pos (LogRecord.serialize_isSome.mpr hr)
    have hlength := congrArg List.length (Option.some.inj (hfile.symm.trans hfile'))
    dsimp only at hlength
    rw [hcons, hwrites, List.flatMap_cons, List.length_append, List.length_append] at hlength
    have hpos := LogRecord.length_serialize_pos hr
    omega

/-! ## Runs -/

/-- Is this a call of a writer of the log? -/
def WalCall.writes : WalCall → Bool
  | .append _ | .log _ | .flush => true
  | .recover | .truncate | .reopen => false

/-- Any calls of the writers of a log. -/
def writerMachine (w : WALManager) : Machine WalRun WalCall WalReply :=
  { walMachine w with enabled := fun _ call => call.writes }

instance (w : WALManager) (s : WalRun) (call : WalCall) :
    Decidable ((writerMachine w).enabled s call) := inferInstanceAs (Decidable (_ = true))

/-- The manager after the append of a call, if it makes one. -/
def WalCall.appendTo (call : WalCall) (w : WALManager) : WALManager :=
  match call.record? with
  | some record => (w.append record).1
  | none => w

/-- The records that were appended in a run, in order. -/
def appended (tr : List (Event WalRun WalCall WalReply)) : List LogRecord :=
  tr.filterMap fun e => e.input.record?.map (numbered e.pre.wal)

/-- The buffer that a step flushes. -/
def flushedBy (e : Event WalRun WalCall WalReply) : List LogRecord :=
  if e.input.flushes then (e.input.appendTo e.pre.wal).buffer else []

theorem WalRun.step_wal (s : WalRun) {call : WalCall} (h : call.writes) : (s.step call).1.wal =
    if call.flushes then (call.appendTo s.wal).flush.1 else call.appendTo s.wal := by
  cases call with
  | append record => rfl
  | log call =>
    show (if call.flushes then _ else _ : WalRun × WalReply).1.wal = if call.flushes then _ else _
    split <;> rfl
  | flush => rfl
  | recover => cases h
  | truncate => cases h
  | reopen => cases h

theorem Threaded.appendTo (h : Threaded records w) (call : WalCall) :
    Threaded (records ++ (call.record?.map (numbered w)).toList) (call.appendTo w) := by
  unfold WalCall.appendTo
  cases call.record? with
  | none =>
    rw [Option.map_none, Option.toList_none, List.append_nil]
    exact h
  | some record => exact h.append record

section Runs

variable {tr : List (Event WalRun WalCall WalReply)} {s : WalRun} {call : WalCall}

theorem appended_snoc : appended (tr ++ [(writerMachine w).event s call]) =
    appended tr ++ (call.record?.map (numbered s.wal)).toList := by
  unfold appended
  rw [List.filterMap_append]
  congr 1

/-- A step keeps what holds of the log if and only if its flush writes all or nothing. -/
theorem threaded_step (hs : Threaded (appended tr) s.wal) (hwrites : call.writes) :
    Threaded (appended (tr ++ [(writerMachine w).event s call])) (s.step call).1.wal ↔
      Whole (flushedBy ((writerMachine w).event s call)) := by
  have happend := hs.appendTo call
  rw [appended_snoc, s.step_wal hwrites]
  show _ ↔ Whole (if call.flushes then (call.appendTo s.wal).buffer else [])
  split
  · exact ⟨happend.whole, happend.flush⟩
  · exact iff_of_true happend (.inl fun _ hr => nomatch hr)

/-- Two transactions, the first of which commits. -/
def twoBegins : List WalCall := [.log (.begin 1), .log (.begin 2), .log (.commit 1)]

/-- A transaction number that does not fit in four bytes comes second. -/
def wideTransaction : List WalCall := [.log (.begin 1), .log (.begin (2 ^ 32))]

end Runs

end PySQL.Storage
