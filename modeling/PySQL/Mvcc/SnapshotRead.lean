import PySQL.Mvcc.FirstUpdater

/-!
# Snapshot reads are repeatable

A read looks for the first version of a chain whose creator, and not whose deleter, is committed
in the snapshot of the reader.  Other transactions only stamp ids outside that snapshot, so the
read can change only when an id inside it is overwritten: the `xmax` of a version that was deleted
before the reader began.
-/

namespace PySQL.Mvcc

open Lib MVCCManager

set_option linter.unusedSectionVars false

variable {τ κ δ : Type*} [DecidableEq τ] [DecidableEq κ]
variable {m m' : MVCCManager τ κ δ} {txn : Transaction τ κ}

theorem MVCCManager.TableWF.not_isCommitted (h : m.TableWF) {i : ℕ}
    (hget : m.txns.get? i = some txn) {j : ℕ} (hj : j = 0 ∨ j ∈ m.activeTxns ∨ m.nextTxnId ≤ j) :
    txn.snapshot.isCommitted j = false := by
  refine Bool.eq_false_iff.mpr fun hc => ?_
  have hm := h.mem_committed ((h.snapshot i txn hget).1 j hc).1
  rcases hj with rfl | hj | hj
  · omega
  · exact hm.2.2 hj
  · omega

/-- The branches of `is_visible_to` on the snapshots that `begin_transaction` takes. -/
theorem isVisibleTo_iff (h : m.TableWF) (hget : m.txns.get? txn.txnId = some txn)
    (v : VersionRecord δ) :
    v.isVisibleTo txn.txnId txn.snapshot = true ↔
      (v.xmin = txn.txnId ∨ txn.snapshot.isCommitted v.xmin) ∧ v.xmax ≠ txn.txnId ∧
        ¬ txn.snapshot.isCommitted v.xmax := by
  have hactive : ∀ j, txn.snapshot.isCommitted j → j ∉ txn.snapshot.activeTxns :=
    fun j hc hj => (h.snapshot _ txn hget).2 j hj hc
  have hzero : txn.snapshot.isCommitted 0 = false := h.not_isCommitted hget (.inl rfl)
  have hpos := (h.txnId _ txn hget).2.1
  unfold VersionRecord.isVisibleTo
  by_cases hmin : v.xmin = txn.txnId
  · by_cases hmax : v.xmax = txn.txnId
    · simp [hmin, hmax]
    · by_cases h0 : v.xmax = 0
      · simp [hmin, h0, hzero, show (0 : ℕ) ≠ txn.txnId by omega]
      · simp [hmin, hmax, h0]
  · by_cases hcmin : txn.snapshot.isCommitted v.xmin
    · by_cases h0 : v.xmax = 0
      · simp [hmin, hcmin, hactive _ hcmin, h0, hzero, show (0 : ℕ) ≠ txn.txnId by omega]
      · by_cases hmax : v.xmax = txn.txnId
        · simp [hmin, hcmin, hactive _ hcmin, hmax, show txn.txnId ≠ 0 by omega]
        · by_cases hcmax : txn.snapshot.isCommitted v.xmax
          · simp [hmin, hcmin, hactive _ hcmin, h0, hmax, hcmax, hactive _ hcmax]
          · simp [hmin, hcmin, hactive _ hcmin, h0, hmax, hcmax]
    · simp [hmin, hcmin]

/-- What a read of the chain by `txn` returns. -/
def view (txn : Transaction τ κ) (c? : Option (VersionChain δ)) : Option δ :=
  (c?.bind (visibleVersion txn)).map VersionRecord.data

theorem step_read (hget : m.txns.get? txn.txnId = some txn) (t : τ) (k : κ) :
    (m.step (.read txn.txnId t k)).2 = .data (view txn (m.chain? t k)) := by
  simp only [step, hget, readVersion, view]
  cases (m.chain? t k).bind (visibleVersion txn) <;> rfl

theorem view_congr {txn' : Transaction τ κ} (hid : txn'.txnId = txn.txnId)
    (hsn : txn'.snapshot = txn.snapshot) (c? : Option (VersionChain δ)) :
    view txn' c? = view txn c? := by
  unfold view visibleVersion
  rw [hid, hsn]

/-- The data that a reader finds in a list of versions. -/
def viewList (txn : Transaction τ κ) (vs : List (VersionRecord δ)) : Option δ :=
  (vs.find? (·.isVisibleTo txn.txnId txn.snapshot)).map VersionRecord.data

theorem view_some (c : VersionChain δ) : view txn (some c) = viewList txn (c.head :: c.prevs) := rfl

theorem viewList_cons_of_not_visible {v : VersionRecord δ} (vs : List (VersionRecord δ))
    (h : ¬ v.isVisibleTo txn.txnId txn.snapshot = true) :
    viewList txn (v :: vs) = viewList txn vs := by
  unfold viewList
  rw [List.find?_cons, Bool.eq_false_iff.mpr h]

/-- Restamping the head does not change what is seen if it does not change whether it is seen. -/
theorem viewList_restamp {v v' : VersionRecord δ} (vs : List (VersionRecord δ))
    (hdata : v'.data = v.data) (h : v'.isVisibleTo txn.txnId txn.snapshot =
      v.isVisibleTo txn.txnId txn.snapshot) :
    viewList txn (v' :: vs) = viewList txn (v :: vs) := by
  unfold viewList
  rw [List.find?_cons, List.find?_cons, h]
  cases v.isVisibleTo txn.txnId txn.snapshot <;> simp [hdata]

/-- Writing or deleting `(t, k)`: who does it and where. -/
def Call.updates? : Call τ κ δ → Option (ℕ × τ × κ)
  | .write i t k _ | .delete i t k => some (i, t, k)
  | _ => none

/-- The call does not write or delete a key whose head version was both created and deleted in the
snapshot of another active transaction that has not touched the key. -/
def KeepsTombstones (m : MVCCManager τ κ δ) (call : Call τ κ δ) : Prop :=
  ∀ i t k c txn, call.updates? = some (i, t, k) → m.chain? t k = some c →
    m.txns.get? txn.txnId = some txn → txn.state = .active → txn.txnId ≠ i →
    (t, k) ∉ txn.writeSet → txn.snapshot.isCommitted c.head.xmin →
    ¬ txn.snapshot.isCommitted c.head.xmax

section Step

variable {t : τ} {k : κ}

/-- A reader that has not touched a key left no stamp on its chain. -/
theorem not_stamped (h : m.WF) (hget : m.txns.get? txn.txnId = some txn)
    (hns : (t, k) ∉ txn.writeSet) {c : VersionChain δ} (hc : m.chain? t k = some c)
    {v : VersionRecord δ} (hv : v ∈ c.head :: c.prevs) :
    v.xmin ≠ txn.txnId ∧ v.xmax ≠ txn.txnId := by
  have hno : ¬ m.Wrote txn.txnId t k := by
    rintro ⟨txn', hget', hmem⟩
    rw [hget] at hget'
    cases hget'
    exact hns hmem
  obtain ⟨hmin, hmax⟩ := h.stamped t k c hc v hv
  refine ⟨fun hid => hno (hid ▸ hmin), fun hid => ?_⟩
  have hpos := (h.txnId _ txn hget).2.1
  exact hmax.elim (fun h0 => by omega) fun hw => hno (hid ▸ hw)

/-- Restamping `xmax` between two ids outside the snapshot of the reader. -/
theorem isVisibleTo_restamp (h : m.TableWF) (hget : m.txns.get? txn.txnId = some txn)
    (v : VersionRecord δ) {x : ℕ} (hx : x ≠ txn.txnId) (hcx : ¬ txn.snapshot.isCommitted x)
    (hv : v.xmax ≠ txn.txnId)
    (hcv : txn.snapshot.isCommitted v.xmin → ¬ txn.snapshot.isCommitted v.xmax)
    (hmin : v.xmin ≠ txn.txnId) :
    ({ v with xmax := x } : VersionRecord δ).isVisibleTo txn.txnId txn.snapshot =
      v.isVisibleTo txn.txnId txn.snapshot := by
  rw [Bool.eq_iff_iff, isVisibleTo_iff h hget, isVisibleTo_iff h hget]
  by_cases hc : txn.snapshot.isCommitted v.xmin
  · simp [hx, hcx, hv, hcv hc, hc]
  · simp [hc, hmin]

theorem not_visible_of_active (h : m.TableWF) (hget : m.txns.get? txn.txnId = some txn) {i : ℕ}
    (hi : i ∈ m.activeTxns) (hne : txn.txnId ≠ i) {v : VersionRecord δ} (hv : v.xmin = i) :
    ¬ v.isVisibleTo txn.txnId txn.snapshot = true := by
  rw [isVisibleTo_iff h hget, hv, h.not_isCommitted hget (.inr (.inl hi))]
  simp [hne.symm]

/-- An abort by another transaction does not change what the reader sees. -/
theorem view_abortChain (h : m.WF) (hget : m.txns.get? txn.txnId = some txn)
    (hns : (t, k) ∉ txn.writeSet) {i : ℕ} (hi : i ∈ m.activeTxns) (hne : txn.txnId ≠ i)
    {c : VersionChain δ} (hc : m.chain? t k = some c) :
    view txn (abortChain i c) = view txn (some c) := by
  have hci : ¬ txn.snapshot.isCommitted i := by
    simp [h.not_isCommitted hget (.inr (.inl hi))]
  have h0 : (0 : ℕ) ≠ txn.txnId := by
    have hpos := (h.txnId _ txn hget).2.1
    omega
  have hc0 : ¬ txn.snapshot.isCommitted 0 := by
    simp [h.not_isCommitted hget (.inl rfl)]
  have clear : ∀ v ∈ c.head :: c.prevs, v.xmax = i → ∀ vs,
      viewList txn ({ v with xmax := 0 } :: vs) = viewList txn (v :: vs) := by
    intro v hv hmax vs
    obtain ⟨hmin', hmax'⟩ := not_stamped h hget hns hc hv
    exact viewList_restamp vs rfl (isVisibleTo_restamp h.toTableWF hget v h0 hc0 hmax'
      (fun _ => hmax ▸ hci) hmin')
  unfold abortChain
  split
  · next hmin =>
    have hhead : viewList txn (c.head :: c.prevs) = viewList txn c.prevs :=
      viewList_cons_of_not_visible _ (not_visible_of_active h.toTableWF hget hi hne hmin)
    cases hp : c.prevs with
    | nil =>
      rw [view_some, hhead, hp]
      rfl
    | cons p ps =>
      rw [view_some c, hhead, hp]
      change view txn (some _) = _
      rw [view_some]
      split
      · next hmax => exact clear p (by simp [hp]) hmax ps
      · rfl
  · split
    · next hmax => exact clear c.head List.mem_cons_self hmax c.prevs
    · rfl

/-- An update of the key by another transaction restamps the head, which the reader sees or not as
before, and pushes a version that the reader does not see. -/
theorem viewList_supersede (h : m.WF) (hget : m.txns.get? txn.txnId = some txn)
    (hact : txn.state = .active) (hns : (t, k) ∉ txn.writeSet) {call : Call τ κ δ} {i : ℕ}
    (hcall : call.updates? = some (i, t, k)) (hkeep : KeepsTombstones m call)
    (hi : i ∈ m.activeTxns) (hne : txn.txnId ≠ i) {c : VersionChain δ}
    (hc : m.chain? t k = some c) :
    viewList txn ({ c.head with xmax := i } :: c.prevs) = view txn (some c) := by
  obtain ⟨hmin, hmax⟩ := not_stamped h hget hns hc (List.mem_cons_self)
  have hci : ¬ txn.snapshot.isCommitted i := by
    simp [h.not_isCommitted hget (.inr (.inl hi))]
  have hhead := hkeep i t k c txn hcall hc hget hact hne hns
  rw [view_some]
  exact viewList_restamp c.prevs rfl
    (isVisibleTo_restamp h.toTableWF hget c.head hne.symm hci hmax hhead hmin)

/-- One step of any transaction leaves the reads of another active transaction as they were, on a
key which that one has not touched. -/
theorem view_step (h : m.WF) {call : Call τ κ δ} {reply : Reply δ} (he : Effect m call m' reply)
    (hgc : call ≠ .garbageCollect) (hkeep : KeepsTombstones m call) {txn' : Transaction τ κ}
    (hget : m.txns.get? txn.txnId = some txn) (hget' : m'.txns.get? txn.txnId = some txn')
    (hact' : txn'.state = .active) (hns' : (t, k) ∉ txn'.writeSet) :
    txn.state = .active ∧ txn'.txnId = txn.txnId ∧ txn'.snapshot = txn.snapshot ∧
      (t, k) ∉ txn.writeSet ∧ view txn (m'.chain? t k) = view txn (m.chain? t k) := by
  have same : m'.txns.get? txn.txnId = m.txns.get? txn.txnId → txn' = txn := by
    intro heq
    rw [heq, hget] at hget'
    exact (Option.some.inj hget').symm
  cases he with
  | begin isolation =>
    have hne : m.nextTxnId ≠ txn.txnId := fun hid => by
      rw [← hid, h.get?_next] at hget
      cases hget
    obtain rfl := same (Dict.get?_set_ne _ _ hne)
    exact ⟨hact', rfl, rfl, hns', rfl⟩
  | @write writer t' k' d hgetw hactw hfree =>
    rcases Dict.get?_set_cases hget' with ⟨hid, rfl⟩ | ⟨hne, hget''⟩
    · rw [hid, hget] at hgetw
      obtain rfl := Option.some.inj hgetw
      rw [Transaction.addWrite, List.mem_insert_iff, not_or] at hns'
      have hother : ¬ (t' = t ∧ k' = k) := fun heq => hns'.1 (by rw [heq.1, heq.2])
      exact ⟨hactw, rfl, rfl, hns'.2, by rw [chain?_storeChain, if_neg hother]⟩
    · obtain rfl : txn' = txn := Option.some.inj (hget''.symm.trans hget)
      refine ⟨hact', rfl, rfl, hns', ?_⟩
      rw [chain?_storeChain]
      split
      · next hkey =>
        obtain ⟨rfl, rfl⟩ := hkey
        have hi := (h.active _).mpr ⟨writer, hgetw, hactw⟩
        rw [view_some, viewList_cons_of_not_visible _
          (not_visible_of_active h.toTableWF hget hi hne.symm rfl)]
        cases hc : m.chain? t' k' with
        | none => rfl
        | some c => exact viewList_supersede h hget hact' hns' rfl hkeep hi hne.symm hc
      · rfl
  | @delete writer c t' k' hgetw hactw hc hfree =>
    rcases Dict.get?_set_cases hget' with ⟨hid, rfl⟩ | ⟨hne, hget''⟩
    · rw [hid, hget] at hgetw
      obtain rfl := Option.some.inj hgetw
      rw [Transaction.addWrite, List.mem_insert_iff, not_or] at hns'
      have hother : ¬ (t' = t ∧ k' = k) := fun heq => hns'.1 (by rw [heq.1, heq.2])
      exact ⟨hactw, rfl, rfl, hns'.2, by rw [chain?_storeChain, if_neg hother]⟩
    · obtain rfl : txn' = txn := Option.some.inj (hget''.symm.trans hget)
      refine ⟨hact', rfl, rfl, hns', ?_⟩
      rw [chain?_storeChain]
      split
      · next hkey =>
        obtain ⟨rfl, rfl⟩ := hkey
        have hi := (h.active _).mpr ⟨writer, hgetw, hactw⟩
        rw [hc]
        exact viewList_supersede h hget hact' hns' rfl hkeep hi hne.symm hc
      · rfl
  | refusedWrite =>
    obtain rfl := same rfl
    exact ⟨hact', rfl, rfl, hns', rfl⟩
  | refusedDelete =>
    obtain rfl := same rfl
    exact ⟨hact', rfl, rfl, hns', rfl⟩
  | @read reader v t' k' hgetr hactr hv =>
    rcases Dict.get?_set_cases hget' with ⟨hid, rfl⟩ | ⟨hne, hget''⟩
    · rw [hid, hget] at hgetr
      obtain rfl := Option.some.inj hgetr
      exact ⟨hactr, rfl, rfl, hns', rfl⟩
    · obtain rfl : txn' = txn := Option.some.inj (hget''.symm.trans hget)
      exact ⟨hact', rfl, rfl, hns', rfl⟩
  | readNone =>
    obtain rfl := same rfl
    exact ⟨hact', rfl, rfl, hns', rfl⟩
  | @commit writer hgetw hactw =>
    rcases Dict.get?_set_cases hget' with ⟨hid, rfl⟩ | ⟨hne, hget''⟩
    · cases hact'
    · obtain rfl : txn' = txn := Option.some.inj (hget''.symm.trans hget)
      exact ⟨hact', rfl, rfl, hns', rfl⟩
  | @abort writer hgetw hactw =>
    rcases Dict.get?_set_cases hget' with ⟨hid, rfl⟩ | ⟨hne, hget''⟩
    · cases hact'
    · obtain rfl : txn' = txn := Option.some.inj (hget''.symm.trans hget)
      refine ⟨hact', rfl, rfl, hns', ?_⟩
      rw [chain?_doAbort]
      cases hc : m.chain? t k with
      | none => rfl
      | some c =>
        have hi := (h.active _).mpr ⟨writer, hgetw, hactw⟩
        exact view_abortChain h hget hns' hi hne.symm hc
  | garbageCollect => exact absurd rfl hgc

end Step

/-! ## Whole runs -/

/-- Every read of a key by a transaction that has not updated it returns what a read right after
the transaction began would have returned. -/
def RepeatableReads (tr : History τ κ δ) : Prop :=
  ∀ (b p i : ℕ) (t : τ) (k : κ) (eb e : Step τ κ δ), tr[b]? = some eb → IsBegin i eb →
    tr[p]? = some e → b < p → e.input = .read i t k → (∀ e' ∈ tr.take p, ¬ IsUpdate i t k e') →
    e.reply = (((machine τ κ δ).post eb).step (.read i t k)).2

/-- What the transactions of `m` would read now is what they would have read when they began. -/
def Stable (tr : History τ κ δ) (m : MVCCManager τ κ δ) : Prop :=
  ∀ (b : ℕ) (eb : Step τ κ δ) (t : τ) (k : κ) (txn : Transaction τ κ), tr[b]? = some eb →
    IsBegin txn.txnId eb → m.txns.get? txn.txnId = some txn → txn.state = .active →
    (t, k) ∉ txn.writeSet →
    (((machine τ κ δ).post eb).step (.read txn.txnId t k)).2 = .data (view txn (m.chain? t k))

variable {tr : History τ κ δ}

theorem stable_step (hr : (machine τ κ δ).Run tr m) (hst : Stable tr m) {call : Call τ κ δ}
    (hen : m.enabled call) (hgc : call ≠ .garbageCollect) (hkeep : KeepsTombstones m call) :
    Stable (tr ++ [(machine τ κ δ).event m call]) (m.step call).1 := by
  intro b eb t k txn' hb hbegin hget' hact' hns'
  have hwf := wf_of_reachable ⟨_, hr⟩
  have heff := effect_of_enabled ⟨_, hr⟩ hen
  rcases Nat.lt_or_ge b tr.length with hlt | hge
  · rw [List.getElem?_append_left hlt] at hb
    obtain ⟨txn, hget⟩ := (recorded_of_run hr).known _ b ⟨eb, hb, hbegin⟩
    have hid := (hwf.txnId _ txn hget).1
    rw [← hid] at hget hget' hbegin ⊢
    obtain ⟨hact, -, hsn, hns, hview⟩ := view_step hwf heff hgc hkeep hget hget' hact' hns'
    rw [hst b eb t k txn hb hbegin hget hact hns, view_congr hid.symm hsn, hview]
  · -- the transaction begins with this very step
    rw [List.getElem?_append_right hge, List.getElem?_singleton] at hb
    split at hb
    · cases hb
      exact step_read hget' t k
    · cases hb

theorem stable_of_run (h : (machine τ κ δ).Run tr m)
    (hok : ∀ e ∈ tr, e.input ≠ .garbageCollect ∧ KeepsTombstones e.pre e.input) : Stable tr m :=
  h.invariant_of hok (by simp [Stable]) fun _ _ _ hr hst hen hP =>
    stable_step hr hst hen hP.1 hP.2

/-- Without garbage collection, reads are repeatable in every run in which no update restamps a
version that was both created and deleted in the snapshot of another active transaction. -/
theorem repeatableReads_of_keepsTombstones (h : (machine τ κ δ).Run tr m)
    (hgc : ∀ e ∈ tr, e.input ≠ .garbageCollect)
    (hkeep : ∀ e ∈ tr, KeepsTombstones e.pre e.input) : RepeatableReads tr := by
  intro b p i t k eb e hb hbegin hp hbp hread hns
  obtain ⟨hr, hen, hev⟩ := h.event_at hp
  have hwf := wf_of_reachable ⟨_, hr⟩
  obtain ⟨txn, hget, hact⟩ := hen i (by rw [hread]; rfl)
  obtain rfl := (hwf.txnId i txn hget).1
  have hst := stable_of_run hr fun e he =>
    ⟨hgc e (List.mem_of_mem_take he), hkeep e (List.mem_of_mem_take he)⟩
  have hunwritten : (t, k) ∉ txn.writeSet := fun hmem => by
    obtain ⟨e', he', hup⟩ := ((recorded_of_run hr).updated _ txn hget t k).mp hmem
    exact hns e' he' hup
  have hreply : e.reply = (e.pre.step e.input).2 := congrArg Event.reply hev
  rw [hst b eb t k txn ((List.getElem?_take_of_lt hbp).trans hb) hbegin hget hact hunwritten,
    hreply, hread, step_read hget]

/-- Updating a live head restamps no tombstone. -/
theorem keepsTombstones_of_live (h : m.TableWF) {call : Call τ κ δ}
    (hlive : ∀ p ∈ call.updates?, ∀ c ∈ m.chain? p.2.1 p.2.2, c.head.xmax = 0) :
    KeepsTombstones m call := by
  intro i t k c txn hup hc hget _ _ _ _
  rw [hlive (i, t, k) hup c hc, h.not_isCommitted hget (.inl rfl)]
  exact Bool.false_ne_true

/-- A key is written, read by a second transaction, overwritten by a third and read again. -/
def overwrittenUnderReader : List (Call ℕ ℕ ℕ) :=
  [.begin .snapshot, .write 1 0 0 10, .commit 1, .begin .snapshot, .begin .snapshot,
    .write 3 0 0 20, .commit 3, .read 2 0 0]

theorem overwrittenUnderReader_run :
    (machine ℕ ℕ ℕ).Run ((machine ℕ ℕ ℕ).trace init overwrittenUnderReader)
      ((machine ℕ ℕ ℕ).exec init overwrittenUnderReader) :=
  Machine.run_of_legal (by decide)

theorem repeatableReads_overwrittenUnderReader :
    RepeatableReads ((machine ℕ ℕ ℕ).trace init overwrittenUnderReader) :=
  have hrun := overwrittenUnderReader_run
  have hlive : ∀ e ∈ (machine ℕ ℕ ℕ).trace init overwrittenUnderReader,
      ∀ p ∈ e.input.updates?, ∀ c ∈ e.pre.chain? p.2.1 p.2.2, c.head.xmax = 0 := by decide
  repeatableReads_of_keepsTombstones hrun (by decide) fun e he =>
    keepsTombstones_of_live (wf_of_reachable (hrun.mem_event he).1).toTableWF (hlive e he)

/-- A key is written and deleted; a reader begins, and another transaction writes the key anew. -/
def revivedUnderReader : List (Call ℕ ℕ ℕ) :=
  [.begin .snapshot, .write 1 0 0 10, .commit 1, .begin .snapshot, .delete 2 0 0, .commit 2,
    .begin .snapshot, .begin .snapshot, .write 4 0 0 20, .read 3 0 0]

theorem revivedUnderReader_run :
    (machine ℕ ℕ ℕ).Run ((machine ℕ ℕ ℕ).trace init revivedUnderReader)
      ((machine ℕ ℕ ℕ).exec init revivedUnderReader) :=
  Machine.run_of_legal (by decide)

theorem revivedUnderReader_not_repeatable :
    ¬ ∀ (tr : History ℕ ℕ ℕ) (m : MVCCManager ℕ ℕ ℕ), (machine ℕ ℕ ℕ).Run tr m →
      (∀ e ∈ tr, e.input ≠ .garbageCollect) → RepeatableReads tr := by
  intro h
  have hbad := h _ _ revivedUnderReader_run (by decide) 6 9 3 0 0 _ _ rfl ⟨⟨_, rfl⟩, rfl⟩ rfl
    (by decide) rfl (by simp [IsUpdate, revivedUnderReader, Machine.event])
  revert hbad
  decide

end PySQL.Mvcc
