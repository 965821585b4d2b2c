import PySQL.Lib.Machine
import PySQL.Storage.Wal

/-!
# Which log sequence numbers are handed out

A manager takes its first number from the records it reads on its path, and it reads none: every
manager starts at 1.
-/

namespace PySQL.Storage

open Lib

/-- The `log_*` methods. -/
inductive LogCall where
  | begin (txnId : ℤ)
  | commit (txnId : ℤ)
  | abort (txnId : ℤ)
  | insert (txnId tableId pageId slotId : ℤ) (redoData : Bytes)
  | delete (txnId tableId pageId slotId : ℤ) (undoData : Bytes)
  | update (txnId tableId pageId slotId : ℤ) (undoData redoData : Bytes)
  | checkpoint
  deriving DecidableEq, Repr

def LogCall.record : LogCall → LogRecord
  | .begin txnId => { txnId, recordType := .begin }
  | .commit txnId => { txnId, recordType := .commit }
  | .abort txnId => { txnId, recordType := .abort }
  | .insert txnId tableId pageId slotId redoData =>
    { txnId, recordType := .insert, tableId, pageId, slotId, redoData }
  | .delete txnId tableId pageId slotId undoData =>
    { txnId, recordType := .delete, tableId, pageId, slotId, undoData }
  | .update txnId tableId pageId slotId undoData redoData =>
    { txnId, recordType := .update, tableId, pageId, slotId, undoData, redoData }
  | .checkpoint => { recordType := .checkpoint }

/-- The methods that flush after they append. -/
def LogCall.flushes : LogCall → Bool
  | .commit _ | .checkpoint => true
  | .begin _ | .abort _ | .insert .. | .delete .. | .update .. => false

inductive WalCall where
  | append (record : LogRecord)
  | log (call : LogCall)
  | flush
  | recover
  | truncate
  | reopen
  deriving DecidableEq, Repr

/-- The record that a call appends. -/
def WalCall.record? : WalCall → Option LogRecord
  | .append record => some record
  | .log call => some call.record
  | .flush | .recover | .truncate | .reopen => none

def WalCall.flushes : WalCall → Bool
  | .flush => true
  | .log call => call.flushes
  | .append _ | .recover | .truncate | .reopen => false

inductive WalReply where
  | lsn (lsn : ℤ)
  | unit
  | recovered (txns : Finset ℤ × Finset ℤ)
  | raised (e : WalError)
  deriving DecidableEq

/-- A manager with the numbers of the records flushed so far on its path, and of those flushed
before it was opened. -/
structure WalRun where
  wal : WALManager
  flushed : List ℤ
  flushedAtOpen : List ℤ

namespace WalRun

def appendCall (s : WalRun) (record : LogRecord) : WalRun × WalReply :=
  let r := s.wal.append record
  ({ s with wal := r.1 }, .lsn r.2)

def flushCall (s : WalRun) : WalRun × WalReply :=
  let r := s.wal.flush
  ({ s with
      wal := r.1
      flushed := s.flushed ++ (WALManager.writable s.wal.buffer).map LogRecord.lsn },
    match r.2 with
    | .ok () => .unit
    | .error e => .raised e)

def step (s : WalRun) : WalCall → WalRun × WalReply
  | .append record => s.appendCall record
  | .log call =>
    let appended := s.appendCall call.record
    if call.flushes then
      let flushed := appended.1.flushCall
      (flushed.1,
        match flushed.2 with
        | .raised e => .raised e
        | _ => appended.2)
    else appended
  | .flush => s.flushCall
  | .recover =>
    let r := s.wal.recover
    ({ s with wal := r.1 },
      match r.2 with
      | .ok txns => .recovered txns
      | .error e => .raised e)
  | .truncate => ({ s with wal := s.wal.truncate }, .unit)
  | .reopen =>
    match WALManager.ofFile s.wal.file with
    | .ok wal => ({ s with wal, flushedAtOpen := s.flushed }, .unit)
    | .error e => (s, .raised e)

end WalRun

/-- Any calls on one path, starting with a manager. -/
def walMachine (w : WALManager) : Machine WalRun WalCall WalReply where
  init := ⟨w, [], []⟩
  enabled _ _ := True
  step := WalRun.step

instance (w : WALManager) (s : WalRun) (call : WalCall) :
    Decidable ((walMachine w).enabled s call) := inferInstanceAs (Decidable True)

/-- The number that `append` hands out in a step. -/
def handedOut (e : Event WalRun WalCall WalReply) : Option ℤ :=
  e.input.record?.map fun record => (e.pre.wal.append record).2

/-- The number handed out in a step, if any, is greater than every number flushed before. -/
def Increases (e : Event WalRun WalCall WalReply) : Prop :=
  ∀ lsn ∈ handedOut e, ∀ flushed ∈ e.pre.flushed, flushed < lsn

/-! ## What the calls change -/

theorem WALManager.ofFile_eq (file : Bytes) :
    ofFile file = .ok ⟨file, 1, 0, [], Dict.empty⟩ := by
  simp [ofFile, adoptLast]

theorem WALManager.recover_eq (w : WALManager) : w.recover.1 = w := by
  simp [recover, adoptLast]

namespace WALManager

theorem flush_nextLsn (w : WALManager) : w.flush.1.nextLsn = w.nextLsn := by
  unfold flush
  simp only
  split
  · split <;> rfl
  · rfl

theorem flush_buffer (w : WALManager) : w.flush.1.buffer.Sublist w.buffer := by
  unfold flush
  simp only
  split
  · split
    · exact List.Sublist.refl _
    · exact List.nil_sublist _
  · exact List.Sublist.refl _

end WALManager

/-- Numbers are positive; those in the buffer, and those flushed by this manager, are below the
next one; and either this manager has handed out none, or all that was flushed is below. -/
structure Numbered (s : WalRun) : Prop where
  pos : 1 ≤ s.wal.nextLsn
  buffer : ∀ r ∈ s.wal.buffer, 1 ≤ r.lsn ∧ r.lsn < s.wal.nextLsn
  flushed : ∀ lsn ∈ s.flushed, 1 ≤ lsn
  atOpen : s.flushedAtOpen ⊆ s.flushed
  fresh : s.flushedAtOpen = [] → ∀ lsn ∈ s.flushed, lsn < s.wal.nextLsn

namespace Numbered

variable {s : WalRun}

theorem appendCall (h : Numbered s) (record : LogRecord) : Numbered (s.appendCall record).1 where
  pos := by
    have := h.pos
    show 1 ≤ s.wal.nextLsn + 1
    omega
  buffer r hr := by
    show 1 ≤ r.lsn ∧ r.lsn < s.wal.nextLsn + 1
    have hr' : r ∈ s.wal.buffer ++ [{ record with
      lsn := s.wal.nextLsn, prevLsn := (s.wal.txnTable.get? record.txnId).getD 0 }] := hr
    rcases List.mem_append.mp hr' with hold | hnew
    · have := h.buffer r hold
      omega
    · rw [List.mem_singleton.mp hnew]
      exact ⟨h.pos, Int.lt_succ _⟩
  flushed := h.flushed
  atOpen := h.atOpen
  fresh hnil lsn hl := (h.fresh hnil lsn hl).trans (Int.lt_succ _)

theorem flushCall (h : Numbered s) : Numbered s.flushCall.1 where
  pos := by
    show 1 ≤ s.wal.flush.1.nextLsn
    rw [s.wal.flush_nextLsn]
    exact h.pos
  buffer r hr := by
    show 1 ≤ r.lsn ∧ r.lsn < s.wal.flush.1.nextLsn
    rw [s.wal.flush_nextLsn]
    exact h.buffer r (s.wal.flush_buffer.subset hr)
  flushed lsn hl := by
    rcases List.mem_append.mp hl with hold | hnew
    · exact h.flushed lsn hold
    · obtain ⟨r, hr, rfl⟩ := List.mem_map.mp hnew
      exact (h.buffer r ((List.takeWhile_sublist _).subset hr)).1
  atOpen := List.Subset.trans h.atOpen (List.subset_append_left _ _)
  fresh hnil lsn hl := by
    show lsn < s.wal.flush.1.nextLsn
    rw [s.wal.flush_nextLsn]
    rcases List.mem_append.mp hl with hold | hnew
    · exact h.fresh hnil lsn hold
    · -- what is flushed now comes from this manager's buffer
      obtain ⟨r, hr, rfl⟩ := List.mem_map.mp hnew
      exact (h.buffer r ((List.takeWhile_sublist _).subset hr)).2

theorem step (h : Numbered s) (call : WalCall) : Numbered (s.step call).1 := by
  cases call with
  | append record => exact h.appendCall record
  | log call =>
    unfold WalRun.step
    simp only
    split
    · exact (h.appendCall call.record).flushCall
    · exact h.appendCall call.record
  | flush => exact h.flushCall
  | recover =>
    have heq : (s.step .recover).1 = s := by
      simp only [WalRun.step, WALManager.recover_eq]
    rwa [heq]
  | truncate => exact ⟨h.pos, h.buffer, h.flushed, h.atOpen, h.fresh⟩
  | reopen =>
    simp only [WalRun.step, WALManager.ofFile_eq]
    exact ⟨le_rfl, fun _ hr => (nomatch hr), h.flushed, fun _ hx => hx,
      fun hnil lsn hl => absurd hl (by rw [show s.flushed = [] from hnil]; exact List.not_mem_nil)⟩

end Numbered

/-- A step that appends nothing keeps the next number, or opens a manager that starts at 1. -/
theorem WalRun.step_of_no_record {s : WalRun} {call : WalCall} (h : call.record? = none) :
    (s.step call).1.wal.nextLsn = 1 ∨
      (s.step call).1.wal.nextLsn = s.wal.nextLsn ∧ (s.step call).1.flushedAtOpen = s.flushedAtOpen := by
  cases call with
  | append record => cases h
  | log call => cases h
  | flush => exact .inr ⟨s.wal.flush_nextLsn, rfl⟩
  | recover =>
    right
    simp only [step, WALManager.recover_eq, and_self]
  | truncate => exact .inr ⟨rfl, rfl⟩
  | reopen =>
    left
    simp only [step, WALManager.ofFile_eq]

/-- A step that appends keeps what was flushed when the manager was opened. -/
theorem WalRun.flushedAtOpen_step_of_record {s : WalRun} {call : WalCall}
    (h : call.record? ≠ none) : (s.step call).1.flushedAtOpen = s.flushedAtOpen := by
  cases call with
  | append record => rfl
  | log call =>
    unfold step
    simp only
    split <;> rfl
  | flush => exact absurd rfl h
  | recover => exact absurd rfl h
  | truncate => exact absurd rfl h
  | reopen => exact absurd rfl h

/-! ## Runs -/

section Runs

variable {file : Bytes} {w : WALManager} {s : WalRun}
  {tr : List (Event WalRun WalCall WalReply)}

theorem numbered_of_run (hopen : WALManager.ofFile file = .ok w) (h : (walMachine w).Run tr s) :
    Numbered s := by
  rw [WALManager.ofFile_eq] at hopen
  cases hopen
  refine h.invariant (I := fun _ s => Numbered s) ?_ fun _ s call _ hI _ => hI.step call
  exact ⟨le_rfl, fun _ hr => (nomatch hr), fun _ hx => (nomatch hx), fun _ hx => hx,
    fun _ _ hx => nomatch hx⟩

/-- The first number of a manager that was opened after something was flushed is not new. -/
theorem not_increases (h : Numbered s) {call : WalCall} (hrecord : call.record? ≠ none)
    (hflushed : s.flushedAtOpen ≠ []) (hfirst : s.wal.nextLsn = 1) :
    ¬ Increases ((walMachine w).event s call) := by
  intro hinc
  obtain ⟨record, hsome⟩ := Option.ne_none_iff_exists'.mp hrecord
  obtain ⟨lsn, hlsn⟩ := List.exists_mem_of_ne_nil _ hflushed
  have hold := h.atOpen hlsn
  have hhanded : handedOut ((walMachine w).event s call) = some s.wal.nextLsn := by
    rw [handedOut]
    simp only [Machine.event, hsome]
    rfl
  have hlt := hinc _ hhanded lsn hold
  have hpos := h.flushed lsn hold
  omega

/-- A manager opened after something was flushed has handed out no number yet, or one that was not
new. -/
theorem stale_of_run (hopen : WALManager.ofFile file = .ok w) (h : (walMachine w).Run tr s) :
    s.flushedAtOpen ≠ [] → s.wal.nextLsn = 1 ∨ ∃ e ∈ tr, ¬ Increases e := by
  refine h.invariant (I := fun tr s => s.flushedAtOpen ≠ [] →
    s.wal.nextLsn = 1 ∨ ∃ e ∈ tr, ¬ Increases e) (fun hne => absurd rfl hne) ?_
  intro tr s call hr hI _ hflushed
  by_cases hrecord : call.record? = none
  · rcases WalRun.step_of_no_record (s := s) hrecord with hone | ⟨hnext, hatOpen⟩
    · exact .inl hone
    · have hflushed' : s.flushedAtOpen ≠ [] := by rwa [← hatOpen]
      refine (hI hflushed').imp (fun hone => hnext.trans hone) ?_
      rintro ⟨e, he, hbad⟩
      exact ⟨e, List.mem_append_left _ he, hbad⟩
  · have hatOpen := WalRun.flushedAtOpen_step_of_record (s := s) hrecord
    have hflushed' : s.flushedAtOpen ≠ [] := by rwa [← hatOpen]
    right
    rcases hI hflushed' with hone | ⟨e, he, hbad⟩
    · exact ⟨_, List.mem_append_right _ (List.mem_singleton_self _),
        not_increases (numbered_of_run hopen hr) hrecord hflushed' hone⟩
    · exact ⟨e, List.mem_append_left _ he, hbad⟩

/-- The numbers of a run are never reused if and only if every append of the run is to a manager
that was opened before anything was flushed. -/
theorem increases_iff (hopen : WALManager.ofFile file = .ok w) (h : (walMachine w).Run tr s) :
    (∀ e ∈ tr, Increases e) ↔
      ∀ e ∈ tr, e.input.record? ≠ none → e.pre.flushedAtOpen = [] := by
  constructor
  · intro hall e he hrecord
    by_contra hflushed
    obtain ⟨l, r, rfl⟩ := List.append_of_mem he
    obtain ⟨hr, -, heq⟩ := h.split rfl
    have hnum := numbered_of_run hopen hr
    rcases stale_of_run hopen hr hflushed with hone | ⟨e', he', hbad⟩
    · refine not_increases (w := w) hnum hrecord hflushed hone ?_
      rw [← heq]
      exact hall e he
    · exact hbad (hall e' (List.mem_append_left _ he'))
  · intro hall e he lsn hlsn flushed hf
    obtain ⟨⟨l, hr⟩, -, heq⟩ := h.mem_event he
    have hnum := numbered_of_run hopen hr
    rw [handedOut, Option.mem_def, Option.map_eq_some_iff] at hlsn
    obtain ⟨record, hrecord, rfl⟩ := hlsn
    exact hnum.fresh (hall e he (by rw [hrecord]; exact Option.some_ne_none _)) flushed hf

/-- A record is appended and flushed, the manager is opened again, and a record is appended. -/
def reopenCalls : List WalCall := [.append {}, .flush, .reopen, .append {}]

theorem increases_iff_reopenCalls :
    let w : WALManager := ⟨[], 1, 0, [], Dict.empty⟩
    (∀ e ∈ (walMachine w).trace (walMachine w).init reopenCalls, Increases e) ↔
      ∀ e ∈ (walMachine w).trace (walMachine w).init reopenCalls,
        e.input.record? ≠ none → e.pre.flushedAtOpen = [] :=
  increases_iff (WALManager.ofFile_eq []) (Machine.run_of_legal (by decide))

theorem reopenCalls_reuse : ¬ ∀ (file : Bytes) (w : WALManager), WALManager.ofFile file = .ok w →
    ∀ (tr : List (Event WalRun WalCall WalReply)) (s : WalRun), (walMachine w).Run tr s →
      ∀ e ∈ tr, Increases e := by
  intro h
  let w : WALManager := ⟨[], 1, 0, [], Dict.empty⟩
  have hopen : WALManager.ofFile [] = .ok w := WALManager.ofFile_eq []
  let s := (walMachine w).exec (walMachine w).init [.append {}, .flush, .reopen]
  have hr : (walMachine w).Run _ s := Machine.run_of_legal (by decide)
  have hall := h [] w hopen _ _ (hr.snoc (.append {}) trivial)
  -- what was flushed before the manager was opened again
  have hflushed : ((walMachine w).exec (walMachine w).init [.append {}, .flush]).flushed ≠ [] := by
    decide
  have hreopen : ∀ s₀ : WalRun, (s₀.step .reopen).1.flushedAtOpen = s₀.flushed ∧
      (s₀.step .reopen).1.wal.nextLsn = 1 := by
    intro s₀
    simp only [WalRun.step, WALManager.ofFile_eq, and_self]
  have hstale : s.flushedAtOpen ≠ [] := by
    rw [show s.flushedAtOpen = _ from (hreopen _).1]
    exact hflushed
  have hrecord : (WalCall.append {}).record? ≠ none := Option.some_ne_none _
  exact not_increases (numbered_of_run hopen hr) hrecord hstale (hreopen _).2
    (hall _ (List.mem_append_right _ (List.mem_singleton_self _)))

end Runs

end PySQL.Storage
