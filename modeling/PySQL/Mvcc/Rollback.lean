import PySQL.Mvcc.Invariant

/-!
# Rolling one transaction back

`_do_abort` looks at the head of each chain once and clears an `xmax` it finds there, so what it
restores depends on how often the transaction wrote the key and on the `xmax` it overwrote.
-/

namespace PySQL.Mvcc

open Lib MVCCManager

variable {τ κ δ : Type*} [DecidableEq τ] [DecidableEq κ]

/-- A modification by one transaction. -/
inductive Modification (τ κ δ : Type*) where
  | write (table : τ) (key : κ) (data : δ)
  | delete (table : τ) (key : κ)
  deriving DecidableEq, Repr

namespace Modification

def call (txnId : ℕ) : Modification τ κ δ → Call τ κ δ
  | write t k d => .write txnId t k d
  | delete t k => .delete txnId t k

/-- The key that is modified. -/
def target : Modification τ κ δ → τ × κ
  | write t k _ | delete t k => (t, k)

def isWrite : Modification τ κ δ → Bool
  | write .. => true
  | delete .. => false

end Modification

/-- `_do_abort` undoes `ops` of `txn` on `(t, k)` when another active transaction holds the key,
so that every call is refused, or when `txn` writes the key at most once and does not overwrite
the `xmax` that an earlier transaction left on the head. -/
def RollsBack (m : MVCCManager τ κ δ) (txn : Transaction τ κ) (ops : List (Modification τ κ δ))
    (t : τ) (k : κ) : Prop :=
  (∃ c, m.chain? t k = some c ∧ m.writeConflict txn c.head = true) ∨
    (ops.countP (fun op => op.target = (t, k) ∧ op.isWrite) ≤ 1 ∧
      ((∃ op ∈ ops, op.target = (t, k)) → ∀ c, m.chain? t k = some c → c.head.xmax = 0))

namespace Rollback

variable {i : ℕ} {c? x? : Option (VersionChain δ)}

/-- What modifications of transaction `i` have made of a chain `c?` that nobody holds: `n` is the
number of writes and `touched` tells whether there was any modification. -/
inductive Shape (i : ℕ) (c? : Option (VersionChain δ)) :
    ℕ → Bool → Option (VersionChain δ) → Prop where
  | untouched : Shape i c? 0 false c?
  | absent : c? = none → Shape i c? 0 true none
  | marked {c} : c? = some c →
      Shape i c? 0 true (some { c with head := { c.head with xmax := i } })
  | written (d xmax) : xmax = 0 ∨ xmax = i →
      Shape i c? 1 true (some ⟨⟨d, i, xmax⟩, supersede i c?⟩)
  | rewritten (n d xmax d' rest) : xmax = 0 ∨ xmax = i →
      Shape i c? (n + 2) true (some ⟨⟨d, i, xmax⟩, ⟨d', i, i⟩ :: rest⟩)

theorem Shape.write {n : ℕ} {touched : Bool} (h : Shape i c? n touched x?) (d : δ) :
    Shape i c? (n + 1) true (some ⟨{ data := d, xmin := i }, supersede i x?⟩) := by
  cases h with
  | untouched => exact .written d 0 (.inl rfl)
  | absent hc =>
    have hw : Shape i c? 1 true _ := .written d 0 (.inl rfl)
    simpa [hc] using hw
  | marked hc =>
    have hw : Shape i c? 1 true _ := .written d 0 (.inl rfl)
    simpa [hc, supersede] using hw
  | written d' xmax hx => exact .rewritten 0 d 0 d' _ (.inl rfl)
  | rewritten n d' xmax d'' rest hx => exact .rewritten (n + 1) d 0 d' _ (.inl rfl)

theorem Shape.delete {n : ℕ} {touched : Bool} (h : Shape i c? n touched x?) :
    Shape i c? n true (x?.map fun c => { c with head := { c.head with xmax := i } }) := by
  cases h with
  | untouched =>
    cases hc : c? with
    | none => exact .absent rfl
    | some c => exact .marked rfl
  | absent hc => exact .absent hc
  | marked hc => simpa using Shape.marked hc
  | written d xmax hx => exact .written d i (.inr rfl)
  | rewritten n d xmax d' rest hx => exact .rewritten n d i d' rest (.inr rfl)

/-- No version of the chain carries the stamp of transaction `i`. -/
def Unstamped (i : ℕ) (c? : Option (VersionChain δ)) : Prop :=
  ∀ c, c? = some c → ∀ v ∈ c.head :: c.prevs, v.xmin ≠ i ∧ v.xmax ≠ i

theorem Unstamped.abortChain (h : Unstamped i c?) : c?.bind (abortChain i) = c? := by
  cases hc : c? with
  | none => rfl
  | some c =>
    have hhead := h c hc c.head List.mem_cons_self
    simp [MVCCManager.abortChain, hhead.1, hhead.2]

/-- Clearing an `xmax` that was overwritten restores the version only if it was `0` before. -/
theorem clear_eq_iff {c : VersionChain δ} :
    (⟨{ c.head with xmax := 0 }, c.prevs⟩ : VersionChain δ) = c ↔ c.head.xmax = 0 := by
  obtain ⟨⟨d, xmin, xmax⟩, prevs⟩ := c
  simp [eq_comm]

theorem Shape.abort_iff {n : ℕ} {touched : Bool} (h : Shape i c? n touched x?)
    (hc? : Unstamped i c?) :
    x?.bind (MVCCManager.abortChain i) = c? ↔
      n ≤ 1 ∧ (touched = true → ∀ c, c? = some c → c.head.xmax = 0) := by
  cases h with
  | untouched => simp [hc?.abortChain]
  | absent hc => simp [hc]
  | @marked c hc =>
    have hmin : c.head.xmin ≠ i := (hc? c hc c.head List.mem_cons_self).1
    simp [hc, MVCCManager.abortChain, hmin, clear_eq_iff]
  | written d xmax hx =>
    cases hc : c? with
    | none => simp [MVCCManager.abortChain, supersede]
    | some c => simp [MVCCManager.abortChain, supersede, clear_eq_iff]
  | rewritten n d xmax d' rest hx =>
    have hne : c? ≠ some ⟨⟨d', i, 0⟩, rest⟩ :=
      fun hc => (hc? _ hc _ List.mem_cons_self).1 rfl
    simp [MVCCManager.abortChain, hne.symm]

/-- Another active transaction holds the key. -/
def Held (m : MVCCManager τ κ δ) (txn : Transaction τ κ) (t : τ) (k : κ) : Prop :=
  ∃ c, m.chain? t k = some c ∧ m.writeConflict txn c.head = true

/-- `m'` is `m` after the modifications `ops` of `txn`. -/
structure Modified (m : MVCCManager τ κ δ) (txn : Transaction τ κ)
    (ops : List (Modification τ κ δ)) (m' : MVCCManager τ κ δ) : Prop where
  isActive : m'.IsActive txn.txnId
  active : m'.activeTxns = m.activeTxns
  held : ∀ t k, Held m txn t k → m'.chain? t k = m.chain? t k
  free : ∀ t k, ¬ Held m txn t k →
    Shape txn.txnId (m.chain? t k) (ops.countP fun op => op.target = (t, k) ∧ op.isWrite)
      (ops.any fun op => op.target = (t, k)) (m'.chain? t k)

variable {m m' m'' : MVCCManager τ κ δ} {txn : Transaction τ κ} {ops : List (Modification τ κ δ)}

omit [DecidableEq τ] [DecidableEq κ] in
theorem writeConflict_congr {txn' : Transaction τ κ} (hact : m'.activeTxns = m.activeTxns)
    (hid : txn'.txnId = txn.txnId) (v : VersionRecord δ) :
    m'.writeConflict txn' v = m.writeConflict txn v := by
  simp [writeConflict, hact, hid]

/-- What the transaction left on the head of a chain does not stop it later. -/
theorem Shape.not_conflict {n : ℕ} {touched : Bool} {t : τ} {k : κ}
    (h : Shape txn.txnId (m.chain? t k) n touched x?) (hfree : ¬ Held m txn t k) :
    ∀ c, x? = some c → m.writeConflict txn c.head = false := by
  intro c hc
  cases h with
  | untouched => exact Bool.eq_false_iff.mpr fun hconf => hfree ⟨c, hc, hconf⟩
  | absent => cases hc
  | marked => cases hc; simp [writeConflict]
  | written d xmax hx => cases hc; rcases hx with rfl | rfl <;> simp [writeConflict]
  | rewritten n d xmax d' rest hx => cases hc; rcases hx with rfl | rfl <;> simp [writeConflict]

/-- A call that changes the chain of the key it targets. -/
theorem Modified.touch (h : Modified m txn ops m') (op : Modification τ κ δ)
    (x? : Option (VersionChain δ)) (hisActive : m''.IsActive txn.txnId) (hact : m''.activeTxns = m'.activeTxns)
    (hchain : ∀ t k, m''.chain? t k = if op.target = (t, k) then x? else m'.chain? t k)
    (hheld : ∀ t k, op.target = (t, k) → ¬ Held m txn t k)
    (hshape : ∀ t k n touched, op.target = (t, k) →
      Shape txn.txnId (m.chain? t k) n touched (m'.chain? t k) →
      Shape txn.txnId (m.chain? t k) (n + if op.isWrite then 1 else 0) true x?) :
    Modified m txn (ops ++ [op]) m'' := by
  refine ⟨hisActive, hact.trans h.active, ?_, ?_⟩
  · intro t k hh
    rw [hchain, if_neg fun ht => hheld t k ht hh]
    exact h.held t k hh
  · intro t k hfree
    have hold := h.free t k hfree
    rw [hchain, List.countP_append, List.any_append]
    by_cases ht : op.target = (t, k)
    · simpa [List.countP_singleton, ht] using hshape t k _ _ ht hold
    · simpa [List.countP_singleton, ht] using hold

/-- A call that is refused because another transaction holds the key. -/
theorem Modified.skip (h : Modified m txn ops m') (op : Modification τ κ δ)
    (hheld : ∀ t k, op.target = (t, k) → Held m txn t k) : Modified m txn (ops ++ [op]) m' := by
  refine ⟨h.isActive, h.active, h.held, ?_⟩
  intro t k hfree
  have ht : op.target ≠ (t, k) := fun ht => hfree (hheld t k ht)
  simpa [List.countP_append, List.countP_singleton, ht] using h.free t k hfree

theorem isActive_storeChain {t : τ} {k : κ} (c : VersionChain δ) (hact : txn.state = .active) :
    (m'.storeChain txn t k c).IsActive txn.txnId :=
  ⟨txn.addWrite t k, Dict.get?_set_self _ _ _, hact⟩

theorem Modified.step (hwf : m'.WF) (h : Modified m txn ops m') (op : Modification τ κ δ) :
    Modified m txn (ops ++ [op]) (m'.step (op.call txn.txnId)).1 := by
  have conflict_iff : ∀ {txn' : Transaction τ κ}, txn'.txnId = txn.txnId → ∀ t k c,
      m'.chain? t k = some c → (m'.writeConflict txn' c.head = true ↔ Held m txn t k) := by
    intro txn' hid t k c hc
    rw [writeConflict_congr h.active hid]
    by_cases hh : Held m txn t k
    · obtain ⟨c', hc', hconf⟩ := id hh
      rw [h.held t k hh, hc'] at hc
      cases hc
      exact ⟨fun _ => hh, fun _ => hconf⟩
    · simp [(h.free t k hh).not_conflict hh c hc, hh]
  have hen : m'.enabled (op.call txn.txnId) := by
    intro i hi
    obtain rfl : txn.txnId = i := by cases op <;> exact Option.some.inj hi
    exact h.isActive
  have heff := step_effect hwf hen
  generalize (m'.step (op.call txn.txnId)).2 = reply at heff
  generalize (m'.step (op.call txn.txnId)).1 = m'' at heff ⊢
  generalize hi : txn.txnId = i at heff
  cases op with
  | write t k d =>
    cases heff with
    | @write txn' _ _ _ hget hact hfree =>
      refine h.touch _ (some ⟨{ data := d, xmin := txn'.txnId }, supersede txn'.txnId (m'.chain? t k)⟩)
        (by rw [hi]; exact isActive_storeChain _ hact) rfl
        (fun t' k' => (chain?_storeChain m' txn' t t' k k' _).trans (by simp [Modification.target]))
        ?_ ?_
      · rintro t' k' ht hh
        cases ht
        obtain ⟨c, hc, hconf⟩ := id hh
        rw [← h.held t k hh] at hc
        have hheld := (conflict_iff hi.symm t k c hc).mpr hh
        rw [hfree c hc] at hheld
        cases hheld
      · rintro t' k' n touched ht hs
        cases ht
        rw [← hi]
        exact hs.write d
    | refusedWrite _ _ _ hget hc hconf =>
      refine h.skip _ fun t' k' ht => ?_
      cases ht
      exact (conflict_iff hi.symm t k _ hc).mp hconf
  | delete t k =>
    cases heff with
    | @delete txn' c _ _ hget hact hc hfree =>
      refine h.touch _ (some { c with head := { c.head with xmax := txn'.txnId } })
        (by rw [hi]; exact isActive_storeChain _ hact) rfl
        (fun t' k' => (chain?_storeChain m' txn' t t' k k' _).trans (by simp [Modification.target]))
        ?_ ?_
      · rintro t' k' ht hh
        cases ht
        rw [(conflict_iff hi.symm t k c hc).mpr hh] at hfree
        cases hfree
      · rintro t' k' n touched ht hs
        cases ht
        rw [← hi]
        simpa [hc, Modification.isWrite] using hs.delete
    | @refusedDelete txn' _ _ hget hconf =>
      cases hc : m'.chain? t k with
      | none =>
        refine h.touch _ none h.isActive rfl ?_ ?_ ?_
        · intro t' k'
          split
          · next ht => cases ht; exact hc
          · rfl
        · rintro t' k' ht hh
          cases ht
          obtain ⟨c, hc', -⟩ := id hh
          rw [← h.held t k hh, hc] at hc'
          cases hc'
        · rintro t' k' n touched ht hs
          cases ht
          simpa [hc, Modification.isWrite] using hs.delete
      | some c =>
        refine h.skip _ fun t' k' ht => ?_
        cases ht
        exact (conflict_iff hi.symm t k c hc).mp (hconf c hc)

/-- A run of modifications by one transaction. -/
theorem Modified.exec (hr : (machine τ κ δ).Reachable m) (hact : m.IsActive txn.txnId)
    (ops : List (Modification τ κ δ)) :
    let m' := (machine τ κ δ).exec m (ops.map (·.call txn.txnId))
    (machine τ κ δ).Reachable m' ∧ Modified m txn ops m' := by
  induction ops using List.reverseRecOn with
  | nil => exact ⟨hr, hact, rfl, fun _ _ _ => rfl, fun _ _ _ => .untouched⟩
  | append_singleton ops op ih =>
    obtain ⟨hr', hm⟩ := ih
    have hen : ((machine τ κ δ).exec m (ops.map (·.call txn.txnId))).enabled
        (op.call txn.txnId) := by
      intro i hi
      obtain rfl : txn.txnId = i := by cases op <;> exact Option.some.inj hi
      exact hm.isActive
    rw [List.map_append, Machine.exec_append]
    exact ⟨hr'.step hen, hm.step (wf_of_reachable hr') op⟩

theorem unstamped (hr : (machine τ κ δ).Reachable m) (hget : m.txns.get? txn.txnId = some txn)
    (hnew : txn.writeSet = []) (t : τ) (k : κ) : Unstamped txn.txnId (m.chain? t k) := by
  have hwf := wf_of_reachable hr
  have hno : ¬ m.Wrote txn.txnId t k := by
    rintro ⟨txn', hget', hmem⟩
    rw [hget] at hget'
    cases hget'
    rw [hnew] at hmem
    cases hmem
  intro c hc v hv
  obtain ⟨hmin, hmax⟩ := hwf.stamped t k c hc v hv
  refine ⟨fun h => hno (h ▸ hmin), fun h => ?_⟩
  rcases hmax with h0 | hw
  · have hpos := (hwf.txnId _ _ hget).2.1
    omega
  · exact hno (h ▸ hw)

end Rollback

open Rollback

/-- Aborting `txn` after the modifications `ops` leaves every chain as it was in `m`. -/
def AbortRestores (m : MVCCManager τ κ δ) (txn : Transaction τ κ)
    (ops : List (Modification τ κ δ)) : Prop :=
  ∀ t k, ((machine τ κ δ).exec m
    (ops.map (·.call txn.txnId) ++ [.abort txn.txnId])).chain? t k = m.chain? t k

/-- An abort restores every chain if and only if each key the transaction touched is held by
another transaction, or was written at most once and carried no `xmax` before. -/
theorem abort_restores_iff {m : MVCCManager τ κ δ} (hr : (machine τ κ δ).Reachable m)
    {txn : Transaction τ κ} (hget : m.txns.get? txn.txnId = some txn) (hact : txn.state = .active)
    (hnew : txn.writeSet = []) (ops : List (Modification τ κ δ)) :
    AbortRestores m txn ops ↔ ∀ t k, RollsBack m txn ops t k := by
  obtain ⟨hr', hm⟩ := Modified.exec hr ⟨txn, hget, hact⟩ ops
  generalize hm' : (machine τ κ δ).exec m (ops.map (·.call txn.txnId)) = m' at hr' hm
  have habort : ∀ t k, ((machine τ κ δ).exec m
      (ops.map (·.call txn.txnId) ++ [.abort txn.txnId])).chain? t k =
        (m'.chain? t k).bind (abortChain txn.txnId) := by
    intro t k
    obtain ⟨txn', hget', -⟩ := hm.isActive
    have hid := ((wf_of_reachable hr').txnId _ _ hget').1
    rw [Machine.exec_append, hm']
    simp only [Machine.exec_cons, Machine.exec_nil, machine, step, hget', abortTransaction]
    rw [chain?_doAbort, hid]
  refine forall₂_congr fun t k => ?_
  have hc? := unstamped hr hget hnew t k
  rw [habort, RollsBack]
  by_cases hh : Held m txn t k
  · rw [hm.held t k hh, hc?.abortChain]
    exact iff_of_true rfl (.inl hh)
  · rw [(hm.free t k hh).abort_iff hc?]
    simp only [List.any_eq_true, decide_eq_true_eq]
    exact (or_iff_right hh).symm

/-- One transaction on an empty store. -/
def oneBegun : MVCCManager ℕ ℕ ℕ := (machine ℕ ℕ ℕ).exec init [.begin .snapshot]

def firstTxn : Transaction ℕ ℕ :=
  { txnId := 1
    snapshot := { txnId := 1, activeTxns := [], minActiveTxn := 1, nextTxnId := 1,
                  committed := some [] } }

theorem oneBegun_reachable : (machine ℕ ℕ ℕ).Reachable oneBegun :=
  Machine.reachable_of_legal (by decide)

theorem abort_restores_iff_write_delete :
    AbortRestores oneBegun firstTxn [.write 0 0 7, .delete 0 0] ↔
      ∀ t k, RollsBack oneBegun firstTxn [.write 0 0 7, .delete 0 0] t k :=
  abort_restores_iff oneBegun_reachable (by decide) rfl rfl _

/-- Two writes of one key: the abort pops the second and leaves the first behind. -/
theorem abort_keeps_first_of_two_writes :
    ¬ ∀ (m : MVCCManager ℕ ℕ ℕ) (txn : Transaction ℕ ℕ) (ops : List (Modification ℕ ℕ ℕ)),
      (machine ℕ ℕ ℕ).Reachable m → m.txns.get? txn.txnId = some txn → txn.state = .active →
        txn.writeSet = [] → AbortRestores m txn ops := by
  intro h
  have hrestored := h oneBegun firstTxn [.write 0 0 7, .write 0 0 8] oneBegun_reachable
    (by decide) rfl rfl 0 0
  revert hrestored
  decide

end PySQL.Mvcc
