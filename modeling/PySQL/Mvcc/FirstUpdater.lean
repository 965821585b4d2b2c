import PySQL.Mvcc.Invariant

/-!
# First-updater-wins over whole runs

The history of a run says when transactions began and committed and which updates returned True;
`Recorded` ties the transaction tables, snapshots and write sets of the manager to it.
-/

namespace PySQL.Mvcc

open Lib MVCCManager

set_option linter.unusedSectionVars false

variable {τ κ δ : Type*} [DecidableEq τ] [DecidableEq κ]

abbrev Step (τ κ δ : Type*) := Event (MVCCManager τ κ δ) (Call τ κ δ) (Reply δ)

abbrev History (τ κ δ : Type*) := List (Step τ κ δ)

def IsBegin (i : ℕ) (e : Step τ κ δ) : Prop :=
  (∃ isolation, e.input = .begin isolation) ∧ e.reply = .txn i

def IsCommit (i : ℕ) (e : Step τ κ δ) : Prop :=
  e.input = .commit i ∧ e.reply = .bool true

/-- A write_version or delete_version of `(t, k)` by `i` that returned True. -/
def IsUpdate (i : ℕ) (t : τ) (k : κ) (e : Step τ κ δ) : Prop :=
  ((∃ d, e.input = .write i t k d) ∨ e.input = .delete i t k) ∧ e.reply = .bool true

/-- Both transactions commit, each after the other began. -/
def Overlap (tr : History τ κ δ) (i j : ℕ) : Prop :=
  ∃ bi ci bj cj, At tr bi (IsBegin i) ∧ At tr ci (IsCommit i) ∧ At tr bj (IsBegin j) ∧
    At tr cj (IsCommit j) ∧ bi < cj ∧ bj < ci

/-- No two overlapping committed transactions updated the same key. -/
def FirstUpdaterWins (tr : History τ κ δ) : Prop :=
  ∀ i j t k, i ≠ j → Overlap tr i j → (∃ e ∈ tr, IsUpdate i t k e) →
    ¬ ∃ e ∈ tr, IsUpdate j t k e

/-- If the step commits a transaction, no transaction that committed outside its snapshot shares a
written key with it. -/
def ValidatedCommit (e : Step τ κ δ) : Prop :=
  ∀ txn other, e.input = .commit txn.txnId → e.pre.txns.get? txn.txnId = some txn →
    e.pre.txns.get? other.txnId = some other → other.state = .committed →
    ¬ txn.snapshot.isCommitted other.txnId → ∀ p ∈ txn.writeSet, p ∉ other.writeSet

/-- The tables of `m` record the history `tr`. -/
structure Recorded (tr : History τ κ δ) (m : MVCCManager τ κ δ) : Prop where
  committed : ∀ i, i ∈ m.committedTxns ↔ ∃ n, At tr n (IsCommit i)
  began : ∀ i txn, m.txns.get? i = some txn → ∃ n, At tr n (IsBegin i) ∧
    ∀ j, txn.snapshot.isCommitted j ↔ ∃ c < n, At tr c (IsCommit j)
  known : ∀ i n, At tr n (IsBegin i) → ∃ txn, m.txns.get? i = some txn
  beganOnce : ∀ i n n', At tr n (IsBegin i) → At tr n' (IsBegin i) → n = n'
  updater : ∀ e ∈ tr, ∀ i t k, IsUpdate i t k e → ∃ txn, m.txns.get? i = some txn
  updated : ∀ i txn, m.txns.get? i = some txn → ∀ t k,
    (t, k) ∈ txn.writeSet ↔ ∃ e ∈ tr, IsUpdate i t k e

theorem recorded_init : Recorded ([] : History τ κ δ) init where
  committed := by simp [init, At]
  began := by simp [init]
  known := by simp [At]
  beganOnce := by simp [At]
  updater := by simp
  updated := by simp [init]

variable {tr : History τ κ δ} {m m' : MVCCManager τ κ δ} {call : Call τ κ δ} {reply : Reply δ}

/-- A step that is none of the recorded kinds and keeps ids, snapshots and write sets. -/
theorem Recorded.quiet (h : Recorded tr m) {e : Step τ κ δ} (hb : ∀ i, ¬ IsBegin i e)
    (hc : ∀ i, ¬ IsCommit i e) (hu : ∀ i t k, ¬ IsUpdate i t k e)
    (hcomm : m'.committedTxns = m.committedTxns)
    (htxn : ∀ i txn', m'.txns.get? i = some txn' → ∃ txn, m.txns.get? i = some txn ∧
      txn.snapshot = txn'.snapshot ∧ txn.writeSet = txn'.writeSet)
    (hkeep : ∀ i txn, m.txns.get? i = some txn → ∃ txn', m'.txns.get? i = some txn') :
    Recorded (tr ++ [e]) m' where
  committed i := by simp [at_snoc, hc, hcomm, h.committed]
  began i txn' hget := by
    obtain ⟨txn, hold, hsn, -⟩ := htxn i txn' hget
    obtain ⟨n, hn, hs⟩ := h.began i txn hold
    refine ⟨n, at_snoc.mpr (.inl hn), fun j => ?_⟩
    simp [← hsn, hs, at_snoc, hc]
  known i n hn := by
    obtain ⟨txn, hget⟩ := h.known i n ((at_snoc.mp hn).resolve_right fun hp => hb i hp.2)
    exact hkeep i txn hget
  beganOnce i n n' hn hn' := by
    simp only [at_snoc, hb, and_false, or_false] at hn hn'
    exact h.beganOnce i n n' hn hn'
  updater e' he' i t k hup := by
    rcases List.mem_append.mp he' with he' | he'
    · obtain ⟨txn, hget⟩ := h.updater e' he' i t k hup
      exact hkeep i txn hget
    · obtain rfl := List.mem_singleton.mp he'
      exact absurd hup (hu i t k)
  updated i txn' hget t k := by
    obtain ⟨txn, hold, -, hws⟩ := htxn i txn' hget
    simp [← hws, h.updated i txn hold, hu, or_and_right, exists_or]

theorem Recorded.begin (h : Recorded tr m) (hwf : m.WF) {e : Step τ κ δ} {isolation}
    (hin : e.input = .begin isolation) (hre : e.reply = .txn m.nextTxnId) :
    Recorded (tr ++ [e]) (m.beginTransaction isolation).1 := by
  have hb : ∀ i, IsBegin i e ↔ i = m.nextTxnId := by
    intro i
    simp [IsBegin, hin, hre, eq_comm]
  have hc : ∀ i, ¬ IsCommit i e := by simp [IsCommit, hin]
  have hu : ∀ i t k, ¬ IsUpdate i t k e := by simp [IsUpdate, hin]
  have hnew : ∀ n, ¬ At tr n (IsBegin m.nextTxnId) := by
    intro n hn
    obtain ⟨txn, hget⟩ := h.known _ n hn
    rw [hwf.get?_next] at hget
    cases hget
  refine ⟨fun i => ?_, fun i txn' hget => ?_, fun i n hn => ?_, fun i n n' hn hn' => ?_,
    fun e' he' i t k hup => ?_, fun i txn' hget t k => ?_⟩
  · simp only [at_snoc, hc, and_false, or_false]
    exact h.committed i
  · rcases Dict.get?_set_cases hget with ⟨rfl, rfl⟩ | ⟨-, hget⟩
    · refine ⟨tr.length, at_snoc.mpr (.inr ⟨rfl, (hb _).mpr rfl⟩), fun j => ?_⟩
      simp only [TransactionSnapshot.isCommitted, decide_eq_true_eq, h.committed j, at_snoc, hc,
        and_false, or_false]
      constructor
      · rintro ⟨c, hj⟩
        exact ⟨c, hj.lt, hj⟩
      · rintro ⟨c, -, hj⟩
        exact ⟨c, hj⟩
    · obtain ⟨n, hn, hs⟩ := h.began i txn' hget
      refine ⟨n, at_snoc.mpr (.inl hn), fun j => ?_⟩
      simp only [hs, at_snoc, hc, and_false, or_false]
  · rw [at_snoc, hb] at hn
    rcases hn with hn | ⟨-, rfl⟩
    · obtain ⟨txn, hget⟩ := h.known i n hn
      have hne : m.nextTxnId ≠ i := fun hi => hnew n (hi ▸ hn)
      exact ⟨txn, (Dict.get?_set_ne _ _ hne).trans hget⟩
    · exact ⟨_, Dict.get?_set_self _ _ _⟩
  · rw [at_snoc, hb] at hn hn'
    rcases hn with hn | ⟨rfl, rfl⟩ <;> rcases hn' with hn' | ⟨rfl, hi⟩
    · exact h.beganOnce i n n' hn hn'
    · exact absurd (hi ▸ hn) (hnew n)
    · exact absurd hn' (hnew n')
    · rfl
  · rcases List.mem_append.mp he' with he' | he'
    · obtain ⟨txn, hget⟩ := h.updater e' he' i t k hup
      have hne : m.nextTxnId ≠ i := fun hi => by rw [← hi, hwf.get?_next] at hget; cases hget
      exact ⟨txn, (Dict.get?_set_ne _ _ hne).trans hget⟩
    · obtain rfl := List.mem_singleton.mp he'
      exact absurd hup (hu i t k)
  · simp only [List.mem_append, List.mem_singleton, or_and_right, exists_or, exists_eq_left, hu,
      or_false]
    rcases Dict.get?_set_cases hget with ⟨rfl, rfl⟩ | ⟨-, hget⟩
    · simp only [List.not_mem_nil, false_iff]
      rintro ⟨e', he', hup⟩
      obtain ⟨txn, hget⟩ := h.updater e' he' _ t k hup
      rw [hwf.get?_next] at hget
      cases hget
    · exact h.updated i txn' hget t k

theorem Recorded.update (h : Recorded tr m) {txn : Transaction τ κ}
    (hget : m.txns.get? txn.txnId = some txn) {t : τ} {k : κ} {e : Step τ κ δ}
    (hb : ∀ i, ¬ IsBegin i e) (hc : ∀ i, ¬ IsCommit i e)
    (hu : ∀ i t' k', IsUpdate i t' k' e ↔ i = txn.txnId ∧ t' = t ∧ k' = k) (c : VersionChain δ) :
    Recorded (tr ++ [e]) (m.storeChain txn t k c) := by
  have hold : ∀ i txn', (m.storeChain txn t k c).txns.get? i = some txn' →
      ∃ x, m.txns.get? i = some x ∧ x.snapshot = txn'.snapshot := by
    intro i txn' hi
    rcases Dict.get?_set_cases hi with ⟨rfl, rfl⟩ | ⟨-, hi⟩
    · exact ⟨txn, hget, rfl⟩
    · exact ⟨txn', hi, rfl⟩
  have hkeep : ∀ i x, m.txns.get? i = some x →
      ∃ txn', (m.storeChain txn t k c).txns.get? i = some txn' := by
    intro i x hi
    by_cases hid : txn.txnId = i
    · exact ⟨_, (Dict.get?_set _ _ _ _).trans (if_pos hid)⟩
    · exact ⟨x, (Dict.get?_set_ne _ _ hid).trans hi⟩
  refine ⟨fun i => ?_, fun i txn' hi => ?_, fun i n hn => ?_, fun i n n' hn hn' => ?_,
    fun e' he' i t' k' hup => ?_, fun i txn' hi t' k' => ?_⟩
  · simp only [at_snoc, hc, and_false, or_false]
    exact h.committed i
  · obtain ⟨x, hx, hsn⟩ := hold i txn' hi
    obtain ⟨n, hn, hs⟩ := h.began i x hx
    refine ⟨n, at_snoc.mpr (.inl hn), fun j => ?_⟩
    simp only [← hsn, hs, at_snoc, hc, and_false, or_false]
  · obtain ⟨x, hx⟩ := h.known i n ((at_snoc.mp hn).resolve_right fun hp => hb i hp.2)
    exact hkeep i x hx
  · simp only [at_snoc, hb, and_false, or_false] at hn hn'
    exact h.beganOnce i n n' hn hn'
  · rcases List.mem_append.mp he' with he' | he'
    · obtain ⟨x, hx⟩ := h.updater e' he' i t' k' hup
      exact hkeep i x hx
    · obtain rfl := List.mem_singleton.mp he'
      obtain ⟨rfl, -, -⟩ := (hu i t' k').mp hup
      exact hkeep _ txn hget
  · simp only [List.mem_append, List.mem_singleton, or_and_right, exists_or, exists_eq_left, hu]
    rcases Dict.get?_set_cases hi with ⟨rfl, rfl⟩ | ⟨hne, hi⟩
    · rw [← h.updated _ txn hget, Transaction.addWrite, List.mem_insert_iff, Prod.mk.injEq]
      tauto
    · rw [← h.updated i txn' hi]
      simp [hne.symm]

/-- A transaction whose object is replaced by one with the same snapshot and write set. -/
theorem get?_set_same {txn : Transaction τ κ} (txn' : Transaction τ κ)
    (hget : m.txns.get? txn.txnId = some txn)
    (hsn : txn'.snapshot = txn.snapshot) (hws : txn'.writeSet = txn.writeSet) :
    (∀ i y, (m.txns.set txn.txnId txn').get? i = some y → ∃ x, m.txns.get? i = some x ∧
      x.snapshot = y.snapshot ∧ x.writeSet = y.writeSet) ∧
    ∀ i x, m.txns.get? i = some x → ∃ y, (m.txns.set txn.txnId txn').get? i = some y := by
  constructor
  · intro i y hi
    rcases Dict.get?_set_cases hi with ⟨rfl, rfl⟩ | ⟨-, hi⟩
    · exact ⟨txn, hget, hsn.symm, hws.symm⟩
    · exact ⟨y, hi, rfl, rfl⟩
  · intro i x hi
    by_cases hid : txn.txnId = i
    · exact ⟨_, (Dict.get?_set _ _ _ _).trans (if_pos hid)⟩
    · exact ⟨x, (Dict.get?_set_ne _ _ hid).trans hi⟩

theorem Recorded.commit (h : Recorded tr m) {txn : Transaction τ κ}
    (hget : m.txns.get? txn.txnId = some txn) {e : Step τ κ δ}
    (hin : e.input = .commit txn.txnId) (hre : e.reply = .bool true) :
    Recorded (tr ++ [e]) (m.commit txn) := by
  have hb : ∀ i, ¬ IsBegin i e := by simp [IsBegin, hin]
  have hc : ∀ i, IsCommit i e ↔ i = txn.txnId := by simp [IsCommit, hin, hre, eq_comm]
  have hu : ∀ i t k, ¬ IsUpdate i t k e := by simp [IsUpdate, hin]
  obtain ⟨hold, hkeep⟩ := get?_set_same { txn with state := .committed } hget rfl rfl
  refine ⟨fun i => ?_, fun i txn' hi => ?_, fun i n hn => ?_, fun i n n' hn hn' => ?_,
    fun e' he' i t' k' hup => ?_, fun i txn' hi t' k' => ?_⟩
  · simp only [at_snoc, hc, exists_or, ← h.committed i, MVCCManager.commit, List.mem_insert_iff,
      exists_eq_left]
    exact or_comm
  · obtain ⟨x, hx, hsn, -⟩ := hold i txn' hi
    obtain ⟨n, hn, hs⟩ := h.began i x hx
    refine ⟨n, at_snoc.mpr (.inl hn), fun j => ?_⟩
    rw [← hsn, hs]
    -- the new commit is later than every begin on record
    refine exists_congr fun p => and_congr_right fun hp => ?_
    rw [at_snoc, or_iff_left]
    rintro ⟨rfl, -⟩
    exact absurd hn.lt (Nat.lt_asymm hp)
  · obtain ⟨x, hx⟩ := h.known i n ((at_snoc.mp hn).resolve_right fun hp => hb i hp.2)
    exact hkeep i x hx
  · simp only [at_snoc, hb, and_false, or_false] at hn hn'
    exact h.beganOnce i n n' hn hn'
  · rcases List.mem_append.mp he' with he' | he'
    · obtain ⟨x, hx⟩ := h.updater e' he' i t' k' hup
      exact hkeep i x hx
    · obtain rfl := List.mem_singleton.mp he'
      exact absurd hup (hu i t' k')
  · obtain ⟨x, hx, -, hws⟩ := hold i txn' hi
    simp [← hws, h.updated i x hx, hu, or_and_right, exists_or]

theorem Recorded.step (h : Recorded tr m) (hwf : m.WF) (he : Effect m call m' reply)
    {e : Step τ κ δ} (hin : e.input = call) (hre : e.reply = reply) :
    Recorded (tr ++ [e]) m' := by
  have same : (∀ i y, m.txns.get? i = some y → ∃ x, m.txns.get? i = some x ∧
      x.snapshot = y.snapshot ∧ x.writeSet = y.writeSet) := fun i y hy => ⟨y, hy, rfl, rfl⟩
  have kept : ∀ i x, m.txns.get? i = some x → ∃ y, m.txns.get? i = some y :=
    fun i x hx => ⟨x, hx⟩
  cases he with
  | begin isolation => exact h.begin hwf hin hre
  | @write txn t k d hget hact hfree =>
    refine h.update hget ?_ ?_ ?_ _
    · simp [IsBegin, hin]
    · simp [IsCommit, hin]
    · intro i t' k'
      simp [IsUpdate, hin, hre, eq_comm]
  | @delete txn c t k hget hact hc hfree =>
    refine h.update hget ?_ ?_ ?_ _
    · simp [IsBegin, hin]
    · simp [IsCommit, hin]
    · intro i t' k'
      simp [IsUpdate, hin, hre, eq_comm]
  | refusedWrite =>
    exact h.quiet (by simp [IsBegin, hin]) (by simp [IsCommit, hin])
      (by simp [IsUpdate, hre]) rfl same kept
  | refusedDelete =>
    exact h.quiet (by simp [IsBegin, hin]) (by simp [IsCommit, hin])
      (by simp [IsUpdate, hre]) rfl same kept
  | readNone =>
    exact h.quiet (by simp [IsBegin, hin]) (by simp [IsCommit, hin])
      (by simp [IsUpdate, hin]) rfl same kept
  | garbageCollect =>
    exact h.quiet (by simp [IsBegin, hin]) (by simp [IsCommit, hin])
      (by simp [IsUpdate, hin]) rfl same kept
  | @read txn v t k hget hact hv =>
    have hset := get?_set_same (txn.addRead t k) hget rfl rfl
    exact h.quiet (by simp [IsBegin, hin]) (by simp [IsCommit, hin])
      (by simp [IsUpdate, hin]) rfl hset.1 hset.2
  | commit hget hact => exact h.commit hget hin hre
  | @abort txn hget hact =>
    have hset := get?_set_same { txn with state := .aborted } hget rfl rfl
    exact h.quiet (by simp [IsBegin, hin]) (by simp [IsCommit, hin])
      (by simp [IsUpdate, hin]) rfl hset.1 hset.2

theorem recorded_of_run (h : (machine τ κ δ).Run tr m) : Recorded tr m :=
  h.invariant recorded_init fun _ _ _ hr hrec hen =>
    hrec.step (wf_of_reachable ⟨_, hr⟩) (effect_of_enabled ⟨_, hr⟩ hen) rfl rfl

/-! ## The rule and the check that is missing -/

theorem txnId?_of_isUpdate {i : ℕ} {t : τ} {k : κ} {e : Step τ κ δ} (h : IsUpdate i t k e) :
    e.input.txnId? = some i := by
  rcases h.1 with ⟨d, h⟩ | h <;> rw [h] <;> rfl

/-- A transaction makes no call after its commit. -/
theorem call_le_commit (h : (machine τ κ δ).Run tr m) {i q c : ℕ} {e : Step τ κ δ}
    (hq : tr[q]? = some e) (hi : e.input.txnId? = some i) (hc : At tr c (IsCommit i)) : q ≤ c := by
  by_contra hlt
  obtain ⟨hr, hen, -⟩ := h.event_at hq
  have hcomm := ((recorded_of_run hr).committed i).mpr ⟨c, (at_take (by omega)).mpr hc⟩
  have hwf := wf_of_reachable ⟨_, hr⟩
  exact (hwf.mem_committed hcomm).2.2 ((hwf.active i).mpr (hen i hi))

/-- An update of a transaction stands before its commit, so it is on record there. -/
theorem update_before_commit (h : (machine τ κ δ).Run tr m) {i c p : ℕ} {t : τ} {k : κ}
    (hu : ∃ e ∈ tr, IsUpdate i t k e) (hc : At tr c (IsCommit i)) (hp : c ≤ p) :
    ∃ e ∈ tr.take p, IsUpdate i t k e := by
  obtain ⟨e, he, hup⟩ := hu
  obtain ⟨q, hq⟩ := List.mem_iff_getElem?.mp he
  have hle := call_le_commit h hq (txnId?_of_isUpdate hup) hc
  have hne : q ≠ c := by
    rintro rfl
    obtain ⟨e', he', hce⟩ := hc
    rw [hq] at he'
    cases he'
    rcases hup.1 with ⟨d, hin⟩ | hin <;> rw [hce.1] at hin <;> cases hin
  exact exists_at_iff.mp ⟨q, (at_take (by omega)).mpr ⟨e, hq, hup⟩⟩

theorem not_overlap_of_validated (h : (machine τ κ δ).Run tr m)
    (hv : ∀ e ∈ tr, ValidatedCommit e) {i j bi ci cj : ℕ} {t : τ} {k : κ}
    (hbi : At tr bi (IsBegin i)) (hci : At tr ci (IsCommit i)) (hcj : At tr cj (IsCommit j))
    (hb : bi < cj) (hc : cj < ci) (hi : ∃ e ∈ tr, IsUpdate i t k e)
    (hj : ∃ e ∈ tr, IsUpdate j t k e) : False := by
  obtain ⟨e, he, hcommit⟩ := id hci
  obtain ⟨hr, hen, -⟩ := h.event_at he
  have hrec := recorded_of_run hr
  have hwf := wf_of_reachable ⟨_, hr⟩
  obtain ⟨txn, hget, hact⟩ := hen i (by rw [hcommit.1]; rfl)
  obtain rfl := (hwf.txnId i txn hget).1
  obtain ⟨other, hother, hst⟩ :=
    (hwf.committed j).mp ((hrec.committed j).mpr ⟨cj, (at_take hc).mpr hcj⟩)
  obtain rfl := (hwf.txnId j other hother).1
  have hsnap : ¬ txn.snapshot.isCommitted other.txnId := by
    intro hcm
    obtain ⟨n, hn, hs⟩ := hrec.began _ txn hget
    obtain ⟨c, hcn, hcj'⟩ := (hs _).mp hcm
    have hnb := hrec.beganOnce _ n bi hn ((at_take (hb.trans hc)).mpr hbi)
    obtain ⟨e', he', hin, -⟩ := hcj
    have hle := call_le_commit h he' (by rw [hin]; rfl) ((at_take (by omega)).mp hcj')
    omega
  have hmem := (hrec.updated _ txn hget t k).mpr (update_before_commit h hi hci le_rfl)
  have hmem' := (hrec.updated _ other hother t k).mpr (update_before_commit h hj hcj hc.le)
  exact hv e (List.mem_of_getElem? he) txn other hcommit.1 hget hother hst hsnap _ hmem hmem'

/-- Two transactions open at once that write one key and both commit. -/
def lostUpdate : List (Call ℕ ℕ ℕ) :=
  [.begin .snapshot, .begin .snapshot, .write 1 0 0 10, .write 2 0 0 20, .commit 1, .commit 2]

theorem lostUpdate_run : (machine ℕ ℕ ℕ).Run ((machine ℕ ℕ ℕ).trace init lostUpdate)
    ((machine ℕ ℕ ℕ).exec init lostUpdate) :=
  Machine.run_of_legal (by decide)

end PySQL.Mvcc
