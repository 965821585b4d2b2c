import PySQL.Mvcc.Manager

/-!
# What one call can do, and what every reachable manager keeps

`Effect` lists what an enabled call can do to a well-formed manager.  The conflict loop of
`commit_transaction` has no case there: it looks for a COMMITTED transaction in `_active_txns`,
and in a well-formed manager that table holds only ACTIVE ones.
-/

namespace PySQL.Mvcc

open Lib

set_option linter.unusedSectionVars false

variable {τ κ δ : Type*} [DecidableEq τ] [DecidableEq κ]

namespace MVCCManager

/-! ## Chains after each operation -/

theorem get?_store (vs : Dict τ (Dict κ (VersionChain δ))) (t t' : τ) (k k' : κ)
    (c : VersionChain δ) :
    ((vs.set t (((vs.get? t).getD Dict.empty).set k c)).get? t').bind (·.get? k') =
      if t = t' ∧ k = k' then some c else (vs.get? t').bind (·.get? k') := by
  rw [Dict.get?_set]
  by_cases ht : t = t'
  · subst ht
    rw [if_pos rfl, Option.bind_some, Dict.get?_set]
    by_cases hk : k = k'
    · simp [hk]
    · cases hv : vs.get? t <;> simp [hk]
  · simp [ht]

theorem chain?_storeChain (m : MVCCManager τ κ δ) (txn : Transaction τ κ) (t t' : τ) (k k' : κ)
    (c : VersionChain δ) :
    (m.storeChain txn t k c).chain? t' k' =
      if t = t' ∧ k = k' then some c else m.chain? t' k' :=
  get?_store m.versions t t' k k' c

theorem chain?_doAbort (m : MVCCManager τ κ δ) (txn : Transaction τ κ) (t : τ) (k : κ) :
    (m.doAbort txn).chain? t k = (m.chain? t k).bind (abortChain txn.txnId) := by
  simp only [chain?, doAbort, Dict.get?_map]
  cases m.versions.get? t <;> simp

theorem chain?_garbageCollect (m : MVCCManager τ κ δ) (t : τ) (k : κ) :
    m.garbageCollect.1.chain? t k = (m.chain? t k).map m.trimChain := by
  simp only [chain?, garbageCollect, Dict.get?_map]
  cases m.versions.get? t <;> simp

/-! ## The effect of a call -/

/-- What `write_version` links behind the version it pushes. -/
def supersede (txnId : ℕ) : Option (VersionChain δ) → List (VersionRecord δ)
  | some old => { old.head with xmax := txnId } :: old.prevs
  | none => []

def commit (m : MVCCManager τ κ δ) (txn : Transaction τ κ) : MVCCManager τ κ δ :=
  { m with
    txns := m.txns.set txn.txnId { txn with state := .committed }
    committedTxns := m.committedTxns.insert txn.txnId
    activeTxns := m.activeTxns.erase txn.txnId }

inductive Effect (m : MVCCManager τ κ δ) : Call τ κ δ → MVCCManager τ κ δ → Reply δ → Prop where
  | begin (isolation) :
      Effect m (.begin isolation) (m.beginTransaction isolation).1 (.txn m.nextTxnId)
  | write {txn} (t k d) (hget : m.txns.get? txn.txnId = some txn) (hact : txn.state = .active)
      (hfree : ∀ old, m.chain? t k = some old → m.writeConflict txn old.head = false) :
      Effect m (.write txn.txnId t k d)
        (m.storeChain txn t k ⟨{ data := d, xmin := txn.txnId }, supersede txn.txnId (m.chain? t k)⟩)
        (.bool true)
  | delete {txn c} (t k) (hget : m.txns.get? txn.txnId = some txn) (hact : txn.state = .active)
      (hc : m.chain? t k = some c) (hfree : m.writeConflict txn c.head = false) :
      Effect m (.delete txn.txnId t k)
        (m.storeChain txn t k { c with head := { c.head with xmax := txn.txnId } }) (.bool true)
  | refusedWrite {txn old} (t k d) (hget : m.txns.get? txn.txnId = some txn)
      (hc : m.chain? t k = some old) (hconf : m.writeConflict txn old.head = true) :
      Effect m (.write txn.txnId t k d) m (.bool false)
  | refusedDelete {txn} (t k) (hget : m.txns.get? txn.txnId = some txn)
      (hconf : ∀ c, m.chain? t k = some c → m.writeConflict txn c.head = true) :
      Effect m (.delete txn.txnId t k) m (.bool false)
  | read {txn} {v : VersionRecord δ} (t k) (hget : m.txns.get? txn.txnId = some txn)
      (hact : txn.state = .active)
      (hv : (m.chain? t k).bind (visibleVersion txn) = some v) :
      Effect m (.read txn.txnId t k)
        { m with txns := m.txns.set txn.txnId (txn.addRead t k) } (.data (some v.data))
  | readNone {txn} (t k) (hget : m.txns.get? txn.txnId = some txn)
      (hv : (m.chain? t k).bind (visibleVersion txn) = none) :
      Effect m (.read txn.txnId t k) m (.data none)
  | commit {txn} (hget : m.txns.get? txn.txnId = some txn) (hact : txn.state = .active) :
      Effect m (.commit txn.txnId) (m.commit txn) (.bool true)
  | abort {txn} (hget : m.txns.get? txn.txnId = some txn) (hact : txn.state = .active) :
      Effect m (.abort txn.txnId) (m.doAbort txn) .unit
  | garbageCollect : Effect m .garbageCollect m.garbageCollect.1 (.count m.garbageCollect.2)

/-! ## The invariant -/

/-- A version below another was superseded by the creator of that one. -/
def Linked (c : VersionChain δ) : Prop :=
  List.IsChain (fun above below => below.xmax = above.xmin) (c.head :: c.prevs)

/-- A transaction id that a version of `(t, k)` may carry: its transaction wrote that key. -/
def Wrote (m : MVCCManager τ κ δ) (i : ℕ) (t : τ) (k : κ) : Prop :=
  ∃ txn, m.txns.get? i = some txn ∧ (t, k) ∈ txn.writeSet

/-- The transaction tables agree with one another. -/
structure TableWF (m : MVCCManager τ κ δ) : Prop where
  nextPos : 1 ≤ m.nextTxnId
  txnId : ∀ i txn, m.txns.get? i = some txn → txn.txnId = i ∧ 1 ≤ i ∧ i < m.nextTxnId
  activeNodup : m.activeTxns.Nodup
  active : ∀ i, i ∈ m.activeTxns ↔ ∃ txn, m.txns.get? i = some txn ∧ txn.state = .active
  committed : ∀ i, i ∈ m.committedTxns ↔ ∃ txn, m.txns.get? i = some txn ∧ txn.state = .committed
  aborted : ∀ i, i ∈ m.abortedTxns ↔ ∃ txn, m.txns.get? i = some txn ∧ txn.state = .aborted
  snapshot : ∀ i txn, m.txns.get? i = some txn →
    (∀ j, txn.snapshot.isCommitted j → j ∈ m.committedTxns ∧ j < i) ∧
      ∀ j ∈ txn.snapshot.activeTxns, ¬ txn.snapshot.isCommitted j

structure WF (m : MVCCManager τ κ δ) : Prop extends TableWF m where
  stamped : ∀ t k c, m.chain? t k = some c → ∀ v ∈ c.head :: c.prevs,
    m.Wrote v.xmin t k ∧ (v.xmax = 0 ∨ m.Wrote v.xmax t k)
  linked : ∀ t k c, m.chain? t k = some c → Linked c

theorem WF.not_conflict {m : MVCCManager τ κ δ} (h : m.WF) (txn : Transaction τ κ) :
    m.activeTxns.any (m.commitConflict txn) = false := by
  rw [List.any_eq_false]
  intro i hi
  obtain ⟨other, hget, hact⟩ := (h.active i).mp hi
  simp [commitConflict, hget, hact]

theorem step_effect {m : MVCCManager τ κ δ} (h : m.WF) {call : Call τ κ δ}
    (hen : m.enabled call) : Effect m call (m.step call).1 (m.step call).2 := by
  have onTxn : ∀ i, call.txnId? = some i →
      ∃ txn, i = txn.txnId ∧ m.txns.get? i = some txn ∧ txn.state = .active := by
    intro i hi
    obtain ⟨txn, hget, hact⟩ := hen i hi
    exact ⟨txn, (h.txnId i txn hget).1.symm, hget, hact⟩
  cases call with
  | begin isolation => exact .begin isolation
  | garbageCollect => exact .garbageCollect
  | write i t k d =>
    obtain ⟨txn, rfl, hget, hact⟩ := onTxn i rfl
    simp only [step, hget, writeVersion]
    cases hc : m.chain? t k with
    | none => simpa [hc, supersede] using Effect.write t k d hget hact (by simp [hc])
    | some old =>
      cases hconf : m.writeConflict txn old.head with
      | true => simpa [hconf] using Effect.refusedWrite t k d hget hc hconf
      | false => simpa [hconf, hc, supersede] using Effect.write t k d hget hact (by simp [hc, hconf])
  | delete i t k =>
    obtain ⟨txn, rfl, hget, hact⟩ := onTxn i rfl
    simp only [step, hget, deleteVersion]
    cases hc : m.chain? t k with
    | none => exact .refusedDelete t k hget (by simp [hc])
    | some c =>
      cases hconf : m.writeConflict txn c.head with
      | true => simpa [hconf] using Effect.refusedDelete t k hget (by simp [hc, hconf])
      | false => simpa [hconf] using Effect.delete t k hget hact hc hconf
  | read i t k =>
    obtain ⟨txn, rfl, hget, hact⟩ := onTxn i rfl
    simp only [step, hget, readVersion]
    cases hv : (m.chain? t k).bind (visibleVersion txn) with
    | none => exact .readNone t k hget hv
    | some v => exact .read t k hget hact hv
  | commit i =>
    obtain ⟨txn, rfl, hget, hact⟩ := onTxn i rfl
    have hstep : m.commitTransaction txn = (m.commit txn, true) := by
      simp [commitTransaction, hact, h.not_conflict, MVCCManager.commit]
    simpa [step, hget, hstep] using Effect.commit hget hact
  | abort i =>
    obtain ⟨txn, rfl, hget, hact⟩ := onTxn i rfl
    simpa [step, hget, abortTransaction] using Effect.abort hget hact

/-! ## Every call keeps the invariant -/

theorem tableWF_init : TableWF (init : MVCCManager τ κ δ) where
  nextPos := le_rfl
  txnId := by simp [init]
  activeNodup := List.nodup_nil
  active := by simp [init]
  committed := by simp [init]
  aborted := by simp [init]
  snapshot := by simp [init]

theorem TableWF.get?_next {m : MVCCManager τ κ δ} (h : m.TableWF) :
    m.txns.get? m.nextTxnId = none := by
  cases hg : m.txns.get? m.nextTxnId with
  | none => rfl
  | some txn => exact absurd (h.txnId _ _ hg).2.2 (lt_irrefl _)

theorem TableWF.mem_committed {m : MVCCManager τ κ δ} (h : m.TableWF) {i : ℕ}
    (hi : i ∈ m.committedTxns) : 1 ≤ i ∧ i < m.nextTxnId ∧ i ∉ m.activeTxns := by
  obtain ⟨txn, hget, hst⟩ := (h.committed i).mp hi
  refine ⟨(h.txnId i txn hget).2.1, (h.txnId i txn hget).2.2, fun ha => ?_⟩
  obtain ⟨txn', hget', hst'⟩ := (h.active i).mp ha
  rw [hget] at hget'
  cases hget'
  rw [hst] at hst'
  cases hst'

theorem TableWF.begin {m : MVCCManager τ κ δ} (h : m.TableWF) (isolation : IsolationLevel) :
    (m.beginTransaction isolation).1.TableWF := by
  have hnext := h.get?_next
  refine ⟨Nat.le_add_left 1 _, ?_, ?_, ?_, ?_, ?_, ?_⟩
  · intro i txn hi
    rcases Dict.get?_set_cases hi with ⟨rfl, rfl⟩ | ⟨-, hi⟩
    · exact ⟨rfl, h.nextPos, Nat.lt_succ_self _⟩
    · have hid := h.txnId i txn hi
      exact ⟨hid.1, hid.2.1, Nat.lt_succ_of_lt hid.2.2⟩
  · refine List.nodup_append.mpr ⟨h.activeNodup, List.nodup_singleton _, ?_⟩
    rintro i hi j hj rfl
    obtain ⟨txn, hget, -⟩ := (h.active i).mp hi
    rw [List.mem_singleton.mp hj, hnext] at hget
    cases hget
  · intro i
    change i ∈ m.activeTxns ++ [m.nextTxnId] ↔ _
    refine Iff.trans ?_ Dict.exists_set_iff.symm
    by_cases hi : m.nextTxnId = i
    · simp [hi]
    · rw [if_neg hi, ← h.active i, List.mem_append, List.mem_singleton]
      exact ⟨fun ho => ho.resolve_right fun he => hi he.symm, .inl⟩
  · intro i
    refine (h.committed i).trans (Iff.trans ?_ Dict.exists_set_iff.symm)
    by_cases hi : m.nextTxnId = i
    · simp [← hi, hnext]
    · rw [if_neg hi]
  · intro i
    refine (h.aborted i).trans (Iff.trans ?_ Dict.exists_set_iff.symm)
    by_cases hi : m.nextTxnId = i
    · simp [← hi, hnext]
    · rw [if_neg hi]
  · intro i txn hi
    rcases Dict.get?_set_cases hi with ⟨rfl, rfl⟩ | ⟨-, hi⟩
    · simp only [TransactionSnapshot.isCommitted, decide_eq_true_eq]
      exact ⟨fun j hj => ⟨hj, (h.mem_committed hj).2.1⟩,
        fun j hj hc => (h.mem_committed hc).2.2 hj⟩
    · exact h.snapshot i txn hi

/-- Recording a read or a write in a transaction leaves the tables in agreement. -/
theorem TableWF.retouch {m : MVCCManager τ κ δ} (h : m.TableWF) {txn : Transaction τ κ}
    (txn' : Transaction τ κ) (hget : m.txns.get? txn.txnId = some txn) (hid : txn'.txnId = txn.txnId)
    (hst : txn'.state = txn.state) (hsn : txn'.snapshot = txn.snapshot)
    (versions : Dict τ (Dict κ (VersionChain δ))) :
    TableWF { m with txns := m.txns.set txn.txnId txn', versions := versions } := by
  have hstate : ∀ i s, (∃ y, m.txns.get? i = some y ∧ y.state = s) ↔
      ∃ y, (m.txns.set txn.txnId txn').get? i = some y ∧ y.state = s := by
    intro i s
    refine Iff.trans ?_ Dict.exists_set_iff.symm
    by_cases hi : txn.txnId = i
    · rw [if_pos hi, ← hi]
      simp [hget, hst]
    · rw [if_neg hi]
  refine ⟨h.nextPos, ?_, h.activeNodup, fun i => (h.active i).trans (hstate i _),
    fun i => (h.committed i).trans (hstate i _), fun i => (h.aborted i).trans (hstate i _), ?_⟩
  · intro i y hi
    rcases Dict.get?_set_cases hi with ⟨rfl, rfl⟩ | ⟨-, hi⟩
    · exact ⟨hid, (h.txnId _ _ hget).2⟩
    · exact h.txnId i y hi
  · intro i y hi
    rcases Dict.get?_set_cases hi with ⟨rfl, rfl⟩ | ⟨-, hi⟩
    · rw [hsn]
      exact h.snapshot _ _ hget
    · exact h.snapshot i y hi

theorem TableWF.commit {m : MVCCManager τ κ δ} (h : m.TableWF) {txn : Transaction τ κ}
    (hget : m.txns.get? txn.txnId = some txn) (hact : txn.state = .active) :
    (m.commit txn).TableWF := by
  refine ⟨h.nextPos, ?_, h.activeNodup.erase _, ?_, ?_, ?_, ?_⟩
  · intro i y hi
    rcases Dict.get?_set_cases hi with ⟨rfl, rfl⟩ | ⟨-, hi⟩
    · exact ⟨rfl, (h.txnId _ _ hget).2⟩
    · exact h.txnId i y hi
  · intro i
    refine Iff.trans ?_ Dict.exists_set_iff.symm
    simp only [MVCCManager.commit, h.activeNodup.mem_erase_iff, h.active i]
    by_cases hi : txn.txnId = i
    · simp [hi]
    · simp [hi, Ne.symm hi]
  · intro i
    refine Iff.trans ?_ Dict.exists_set_iff.symm
    simp only [MVCCManager.commit, List.mem_insert_iff, h.committed i]
    by_cases hi : txn.txnId = i
    · simp [hi]
    · simp [hi, Ne.symm hi]
  · intro i
    refine (h.aborted i).trans (Iff.trans ?_ Dict.exists_set_iff.symm)
    by_cases hi : txn.txnId = i
    · simp [← hi, hget, hact]
    · rw [if_neg hi]
  · intro i y hi
    have hsn : ∀ z, m.txns.get? i = some z → z.snapshot = y.snapshot →
        (∀ j, y.snapshot.isCommitted j → j ∈ m.committedTxns.insert txn.txnId ∧ j < i) ∧
          ∀ j ∈ y.snapshot.activeTxns, ¬ y.snapshot.isCommitted j := by
      intro z hz hzy
      have hs := h.snapshot i z hz
      rw [hzy] at hs
      exact ⟨fun j hj => ⟨List.mem_insert_of_mem (hs.1 j hj).1, (hs.1 j hj).2⟩, hs.2⟩
    rcases Dict.get?_set_cases hi with ⟨rfl, rfl⟩ | ⟨-, hi⟩
    · exact hsn txn hget rfl
    · exact hsn y hi rfl

/-- An abort of a transaction that has not committed; it may have been aborted before. -/
theorem TableWF.doAbort_of_not_committed {m : MVCCManager τ κ δ} (h : m.TableWF) {txn : Transaction τ κ}
    (hget : m.txns.get? txn.txnId = some txn) (hst : txn.state ≠ .committed) :
    (m.doAbort txn).TableWF := by
  refine ⟨h.nextPos, ?_, h.activeNodup.erase _, ?_, ?_, ?_, ?_⟩
  · intro i y hi
    rcases Dict.get?_set_cases hi with ⟨rfl, rfl⟩ | ⟨-, hi⟩
    · exact ⟨rfl, (h.txnId _ _ hget).2⟩
    · exact h.txnId i y hi
  · intro i
    refine Iff.trans ?_ Dict.exists_set_iff.symm
    simp only [MVCCManager.doAbort, h.activeNodup.mem_erase_iff, h.active i]
    by_cases hi : txn.txnId = i
    · simp [hi]
    · simp [hi, Ne.symm hi]
  · intro i
    refine (h.committed i).trans (Iff.trans ?_ Dict.exists_set_iff.symm)
    by_cases hi : txn.txnId = i
    · simp [← hi, hget, hst]
    · rw [if_neg hi]
  · intro i
    refine Iff.trans ?_ Dict.exists_set_iff.symm
    simp only [MVCCManager.doAbort, List.mem_insert_iff, h.aborted i]
    by_cases hi : txn.txnId = i
    · simp [hi]
    · simp [hi, Ne.symm hi]
  · intro i y hi
    rcases Dict.get?_set_cases hi with ⟨rfl, rfl⟩ | ⟨-, hi⟩
    · exact h.snapshot txn.txnId txn hget
    · exact h.snapshot i y hi

theorem TableWF.doAbort {m : MVCCManager τ κ δ} (h : m.TableWF) {txn : Transaction τ κ}
    (hget : m.txns.get? txn.txnId = some txn) (hact : txn.state = .active) :
    (m.doAbort txn).TableWF :=
  h.doAbort_of_not_committed hget (by rw [hact]; exact nofun)

theorem Effect.tableWF {m m' : MVCCManager τ κ δ} {call : Call τ κ δ} {reply : Reply δ}
    (h : m.TableWF) (he : Effect m call m' reply) : m'.TableWF := by
  cases he with
  | begin isolation => exact h.begin isolation
  | @write txn t k d hget hact hfree =>
    exact h.retouch (txn.addWrite t k) hget rfl rfl rfl _
  | @delete txn c t k hget hact hc hfree =>
    exact h.retouch (txn.addWrite t k) hget rfl rfl rfl _
  | refusedWrite => exact h
  | refusedDelete => exact h
  | @read txn v t k hget hact hv =>
    exact h.retouch (txn.addRead t k) hget rfl rfl rfl _
  | readNone => exact h
  | commit hget hact => exact h.commit hget hact
  | abort hget hact => exact h.doAbort hget hact
  | garbageCollect =>
    exact ⟨h.nextPos, h.txnId, h.activeNodup, h.active, h.committed, h.aborted, h.snapshot⟩

/-- Write sets only grow. -/
theorem Effect.wrote_mono {m m' : MVCCManager τ κ δ} {call : Call τ κ δ} {reply : Reply δ}
    (h : m.TableWF) (he : Effect m call m' reply) {i : ℕ} {t : τ} {k : κ} (hw : m.Wrote i t k) :
    m'.Wrote i t k := by
  have keep : ∀ {txn txn' : Transaction τ κ}, m.txns.get? txn.txnId = some txn →
      txn.writeSet ⊆ txn'.writeSet →
      ∃ y, (m.txns.set txn.txnId txn').get? i = some y ∧ (t, k) ∈ y.writeSet := by
    intro txn txn' hget hsub
    obtain ⟨x, hx, hmem⟩ := hw
    rw [Dict.exists_set_iff]
    split
    · next hi =>
      rw [← hi, hget] at hx
      cases hx
      exact hsub hmem
    · exact ⟨x, hx, hmem⟩
  cases he with
  | begin isolation =>
    obtain ⟨x, hx, hmem⟩ := hw
    have hne : m.nextTxnId ≠ i := fun hi => by rw [← hi, h.get?_next] at hx; cases hx
    exact ⟨x, (Dict.get?_set_ne _ _ hne).trans hx, hmem⟩
  | write t k d hget hact hfree => exact keep hget fun _ => List.mem_insert_of_mem
  | delete t k hget hact hc hfree => exact keep hget fun _ => List.mem_insert_of_mem
  | refusedWrite => exact hw
  | refusedDelete => exact hw
  | read t k hget hact hv => exact keep hget (List.Subset.refl _)
  | readNone => exact hw
  | commit hget hact => exact keep hget (List.Subset.refl _)
  | abort hget hact => exact keep hget (List.Subset.refl _)
  | garbageCollect => exact hw

theorem wrote_storeChain (m : MVCCManager τ κ δ) (txn : Transaction τ κ) (t : τ) (k : κ)
    (c : VersionChain δ) : (m.storeChain txn t k c).Wrote txn.txnId t k :=
  ⟨txn.addWrite t k, Dict.get?_set_self _ _ _, List.mem_insert_self⟩

/-- The stamps of a chain name transactions that wrote its key. -/
def Stamped (m : MVCCManager τ κ δ) (t : τ) (k : κ) (vs : List (VersionRecord δ)) : Prop :=
  ∀ v ∈ vs, m.Wrote v.xmin t k ∧ (v.xmax = 0 ∨ m.Wrote v.xmax t k)

theorem Stamped.mono {m m' : MVCCManager τ κ δ} {t : τ} {k : κ} {vs : List (VersionRecord δ)}
    (h : m.Stamped t k vs) (hmono : ∀ i, m.Wrote i t k → m'.Wrote i t k) : m'.Stamped t k vs :=
  fun v hv => ⟨hmono _ (h v hv).1, (h v hv).2.imp id (hmono _)⟩

theorem Stamped.supersede {m : MVCCManager τ κ δ} {t : τ} {k : κ} {i : ℕ}
    {c? : Option (VersionChain δ)} (hi : m.Wrote i t k)
    (h : ∀ c, c? = some c → m.Stamped t k (c.head :: c.prevs)) :
    m.Stamped t k (MVCCManager.supersede i c?) := by
  cases c? with
  | none => simp [MVCCManager.supersede, Stamped]
  | some c =>
    have hc := h c rfl
    rintro v (_ | ⟨_, hv⟩)
    · exact ⟨(hc c.head List.mem_cons_self).1, .inr hi⟩
    · exact hc v (List.mem_cons_of_mem _ hv)

theorem linked_supersede {i : ℕ} {d : δ} {c? : Option (VersionChain δ)}
    (h : ∀ c, c? = some c → Linked c) :
    Linked ⟨{ data := d, xmin := i }, MVCCManager.supersede i c?⟩ := by
  cases c? with
  | none => exact List.isChain_singleton _
  | some c =>
    have hc := h c rfl
    refine List.isChain_cons_cons.mpr ⟨rfl, ?_⟩
    rw [Linked] at hc
    cases hp : c.prevs with
    | nil => exact List.isChain_singleton _
    | cons p ps =>
      rw [hp] at hc
      exact List.isChain_cons_cons.mpr (List.isChain_cons_cons.mp hc)

/-- Aborting rewrites no stamp of a chain except to clear an `xmax`. -/
theorem abortChain_spec {m : MVCCManager τ κ δ} {t : τ} {k : κ} {i : ℕ} {c c' : VersionChain δ}
    (hs : m.Stamped t k (c.head :: c.prevs)) (hl : Linked c)
    (hab : abortChain i c = some c') : m.Stamped t k (c'.head :: c'.prevs) ∧ Linked c' := by
  have hhead : ∀ (v : VersionRecord δ) (ps : List (VersionRecord δ)),
      m.Stamped t k (v :: ps) → Linked ⟨v, ps⟩ →
      m.Stamped t k ({ v with xmax := 0 } :: ps) ∧ Linked ⟨{ v with xmax := 0 }, ps⟩ := by
    intro v ps hs hl
    refine ⟨?_, ?_⟩
    · rintro w (_ | ⟨_, hw⟩)
      · exact ⟨(hs v List.mem_cons_self).1, .inl rfl⟩
      · exact hs w (List.mem_cons_of_mem _ hw)
    · cases ps with
      | nil => exact List.isChain_singleton _
      | cons p ps => exact List.isChain_cons_cons.mpr (List.isChain_cons_cons.mp hl)
  unfold abortChain at hab
  split at hab
  · cases hp : c.prevs with
    | nil => simp [hp] at hab
    | cons p ps =>
      rw [hp] at hs
      have hs' : m.Stamped t k (p :: ps) := fun v hv => hs v (List.mem_cons_of_mem _ hv)
      have hl' : Linked ⟨p, ps⟩ := by
        rw [Linked, hp] at hl
        exact (List.isChain_cons_cons.mp hl).2
      simp only [hp, Option.some.injEq] at hab
      subst hab
      split
      · exact hhead p ps hs' hl'
      · exact ⟨hs', hl'⟩
  · split at hab
    · cases hab
      exact hhead c.head c.prevs hs hl
    · cases hab
      exact ⟨hs, hl⟩

theorem trimPrevs_initial (minActive : ℕ) (committed : List ℕ) (vs : List (VersionRecord δ)) :
    (trimPrevs minActive committed vs).1 <+: vs := by
  fun_induction trimPrevs minActive committed vs with
  | case1 prev next rest hcut => exact ⟨next :: rest, rfl⟩
  | case2 prev next rest hcut trimmed ih => exact (List.prefix_cons_inj prev).mpr ih
  | case3 vs hne => exact List.prefix_rfl

theorem Linked.of_initial {c : VersionChain δ} (h : Linked c) {ps : List (VersionRecord δ)}
    (hp : ps <+: c.prevs) : Linked { c with prevs := ps } := by
  obtain ⟨rest, hrest⟩ := hp
  rw [Linked, ← hrest, ← List.cons_append] at h
  exact h.left_of_append

theorem wf_init : WF (init : MVCCManager τ κ δ) where
  toTableWF := tableWF_init
  stamped := by simp [init, chain?]
  linked := by simp [init, chain?]

theorem Effect.wf {m m' : MVCCManager τ κ δ} {call : Call τ κ δ} {reply : Reply δ}
    (h : m.WF) (he : Effect m call m' reply) : m'.WF := by
  have hmono : ∀ t k i, m.Wrote i t k → m'.Wrote i t k := fun t k i => he.wrote_mono h.toTableWF
  refine ⟨he.tableWF h.toTableWF, ?_, ?_⟩
  · have hold : ∀ t k c, m.chain? t k = some c → m'.Stamped t k (c.head :: c.prevs) :=
      fun t k c hc => Stamped.mono (h.stamped t k c hc) (hmono t k)
    change ∀ t k c, m'.chain? t k = some c → m'.Stamped t k (c.head :: c.prevs)
    cases he with
    | begin isolation => exact hold
    | refusedWrite => exact hold
    | refusedDelete => exact hold
    | read => exact hold
    | readNone => exact hold
    | commit => exact hold
    | @write txn t k d hget hact hfree =>
      intro t' k' c' hc'
      have hself := m.wrote_storeChain txn t k
        ⟨{ data := d, xmin := txn.txnId }, supersede txn.txnId (m.chain? t k)⟩
      rw [chain?_storeChain] at hc'
      split at hc'
      · next heq =>
        obtain ⟨rfl, rfl⟩ := heq
        cases hc'
        rintro v (_ | ⟨_, hv⟩)
        · exact ⟨hself, .inl rfl⟩
        · exact Stamped.supersede hself (hold t k) v hv
      · exact hold t' k' c' hc'
    | @delete txn c t k hget hact hc hfree =>
      intro t' k' c' hc'
      rw [chain?_storeChain] at hc'
      split at hc'
      · next heq =>
        obtain ⟨rfl, rfl⟩ := heq
        cases hc'
        rintro v (_ | ⟨_, hv⟩)
        · exact ⟨(hold t k c hc c.head List.mem_cons_self).1, .inr (m.wrote_storeChain txn t k _)⟩
        · exact hold t k c hc v (List.mem_cons_of_mem _ hv)
      · exact hold t' k' c' hc'
    | @abort txn hget hact =>
      intro t k c' hc'
      rw [chain?_doAbort, Option.bind_eq_some_iff] at hc'
      obtain ⟨c, hc, hab⟩ := hc'
      exact (abortChain_spec (hold t k c hc) (h.linked t k c hc) hab).1
    | garbageCollect =>
      intro t k c' hc'
      rw [chain?_garbageCollect, Option.map_eq_some_iff] at hc'
      obtain ⟨c, hc, rfl⟩ := hc'
      have hp := (trimPrevs_initial m.minActive m.committedTxns c.prevs).subset
      exact fun v hv => hold t k c hc v (List.cons_subset_cons _ hp hv)
  · have hold := h.linked
    cases he with
    | begin isolation => exact hold
    | refusedWrite => exact hold
    | refusedDelete => exact hold
    | read => exact hold
    | readNone => exact hold
    | commit => exact hold
    | @write txn t k d hget hact hfree =>
      intro t' k' c' hc'
      rw [chain?_storeChain] at hc'
      split at hc'
      · cases hc'
        exact linked_supersede (hold t k)
      · exact hold t' k' c' hc'
    | @delete txn c t k hget hact hc hfree =>
      intro t' k' c' hc'
      rw [chain?_storeChain] at hc'
      split at hc'
      · cases hc'
        have hl := hold t k c hc
        rw [Linked] at hl ⊢
        cases hp : c.prevs with
        | nil => exact List.isChain_singleton _
        | cons p ps =>
          rw [hp] at hl
          exact List.isChain_cons_cons.mpr (List.isChain_cons_cons.mp hl)
      · exact hold t' k' c' hc'
    | @abort txn hget hact =>
      intro t k c' hc'
      rw [chain?_doAbort, Option.bind_eq_some_iff] at hc'
      obtain ⟨c, hc, hab⟩ := hc'
      exact (abortChain_spec (h.stamped t k c hc) (h.linked t k c hc) hab).2
    | garbageCollect =>
      intro t k c' hc'
      rw [chain?_garbageCollect, Option.map_eq_some_iff] at hc'
      obtain ⟨c, hc, rfl⟩ := hc'
      exact (hold t k c hc).of_initial (trimPrevs_initial _ _ _)

end MVCCManager

open MVCCManager

theorem wf_of_reachable {m : MVCCManager τ κ δ} (h : (machine τ κ δ).Reachable m) : m.WF :=
  h.invariant wf_init fun _ _ _ hwf hen => (step_effect hwf hen).wf hwf

theorem effect_of_enabled {m : MVCCManager τ κ δ} (h : (machine τ κ δ).Reachable m)
    {call : Call τ κ δ} (hen : m.enabled call) :
    Effect m call (m.step call).1 (m.step call).2 :=
  step_effect (wf_of_reachable h) hen

end PySQL.Mvcc
