import PySQL.Mvcc.DirtyRead

/-!
# Outcomes of transactions

Clients may call on a transaction that has ended.  What decides then is the state field: only
`commit_transaction` looks at it.  The calls here are made in any order on any transaction.
-/

namespace PySQL.Mvcc

open Lib MVCCManager

set_option linter.unusedSectionVars false

variable {τ κ δ : Type*} [DecidableEq τ] [DecidableEq κ]
variable {tr : History τ κ δ} {m m' : MVCCManager τ κ δ} {call : Call τ κ δ}

/-- Any transactions over one manager, with any calls but garbage collection at any time. -/
def sessions (τ κ δ : Type*) [DecidableEq τ] [DecidableEq κ] :
    Machine (MVCCManager τ κ δ) (Call τ κ δ) (Reply δ) where
  init := MVCCManager.init
  enabled _ call := call ≠ .garbageCollect
  step := MVCCManager.step

/-! ## The property -/

/-- No transaction is in two of the three tables. -/
def Exclusive (m : MVCCManager τ κ δ) : Prop :=
  ∀ i, ¬(i ∈ m.activeTxns ∧ i ∈ m.committedTxns) ∧ ¬(i ∈ m.activeTxns ∧ i ∈ m.abortedTxns) ∧
    ¬(i ∈ m.committedTxns ∧ i ∈ m.abortedTxns)

def stateOf (m : MVCCManager τ κ δ) (i : ℕ) : Option TransactionState :=
  (m.txns.get? i).map Transaction.state

/-- The step changes the state of a transaction that has begun. -/
def ChangesState (i : ℕ) (e : Step τ κ δ) : Prop :=
  ∃ s s', stateOf e.pre i = some s ∧ stateOf ((sessions τ κ δ).post e) i = some s' ∧ s ≠ s'

/-- The versions that a transaction has in a chain. -/
def created (i : ℕ) (c? : Option (VersionChain δ)) : List (VersionRecord δ) :=
  (c?.elim [] VersionChain.versions).filter (·.xmin = i)

/-- The version is as it was, except that the writer or deleter who makes the call may have set its
xmax. -/
def Superseded (call : Call τ κ δ) (t : τ) (k : κ) (v v' : VersionRecord δ) : Prop :=
  v'.data = v.data ∧ v'.xmin = v.xmin ∧
    (v'.xmax = v.xmax ∨ ∃ j, call.updates? = some (j, t, k) ∧ v'.xmax = j)

/-- As before, except that the abort of the transaction in the xmax takes the mark back, too. -/
def Marked (call : Call τ κ δ) (t : τ) (k : κ) (v v' : VersionRecord δ) : Prop :=
  v'.data = v.data ∧ v'.xmin = v.xmin ∧
    (v'.xmax = v.xmax ∨ (∃ j, call.updates? = some (j, t, k) ∧ v'.xmax = j) ∨
      call = .abort v.xmax ∧ v'.xmax = 0)

/-- The step keeps the versions of a transaction, each changed as `R` allows, below new ones. -/
def KeepsVersions
    (R : Call τ κ δ → τ → κ → VersionRecord δ → VersionRecord δ → Prop) (i : ℕ) (e : Step τ κ δ) :
    Prop :=
  ∀ t k, ∃ new kept, created i (((sessions τ κ δ).post e).chain? t k) = new ++ kept ∧
    List.Forall₂ (R e.input t k) (created i (e.pre.chain? t k)) kept

/-- Outcomes are final: the tables exclude each other, a state changes once, and after the commit of
a transaction its versions change only as `R` allows. -/
structure Final (R : Call τ κ δ → τ → κ → VersionRecord δ → VersionRecord δ → Prop)
    (tr : History τ κ δ) (m : MVCCManager τ κ δ) : Prop where
  exclusive : ∀ x, Machine.Visited tr m x → Exclusive x
  once : ∀ i p q, At tr p (ChangesState i) → At tr q (ChangesState i) → p = q
  kept : ∀ i c q, At tr c (IsCommit i) → c < q → q < tr.length → At tr q (KeepsVersions R i)

/-! ## What a call can do in any state -/

inductive AnyEffect (m : MVCCManager τ κ δ) : Call τ κ δ → MVCCManager τ κ δ → Prop where
  | same (c : Call τ κ δ) : AnyEffect m c m
  | begin (isolation) : AnyEffect m (.begin isolation) (m.beginTransaction isolation).1
  | write {txn} (t k d) (hget : m.txns.get? txn.txnId = some txn) :
      AnyEffect m (.write txn.txnId t k d)
        (m.storeChain txn t k ⟨{ data := d, xmin := txn.txnId }, supersede txn.txnId (m.chain? t k)⟩)
  | delete {txn c} (t k) (hget : m.txns.get? txn.txnId = some txn) (hc : m.chain? t k = some c) :
      AnyEffect m (.delete txn.txnId t k)
        (m.storeChain txn t k { c with head := { c.head with xmax := txn.txnId } })
  | read {txn} (t k) (hget : m.txns.get? txn.txnId = some txn) :
      AnyEffect m (.read txn.txnId t k) { m with txns := m.txns.set txn.txnId (txn.addRead t k) }
  | commit {txn} (hget : m.txns.get? txn.txnId = some txn) (hact : txn.state = .active) :
      AnyEffect m (.commit txn.txnId) (m.commit txn)
  | abort {txn} (hget : m.txns.get? txn.txnId = some txn) :
      AnyEffect m (.abort txn.txnId) (m.doAbort txn)

theorem MVCCManager.TableWF.not_conflict (h : m.TableWF) (txn : Transaction τ κ) :
    m.activeTxns.any (m.commitConflict txn) = false := by
  rw [List.any_eq_false]
  intro i hi
  obtain ⟨other, hget, hact⟩ := (h.active i).mp hi
  simp [commitConflict, hget, hact]

theorem anyEffect_step (h : m.TableWF) (hgc : call ≠ .garbageCollect) :
    AnyEffect m call (m.step call).1 := by
  -- a call on a transaction that does not exist does nothing
  have onTxn : ∀ i, (∃ txn, m.txns.get? i = some txn ∧ txn.txnId = i) ∨ m.txns.get? i = none := by
    intro i
    cases hget : m.txns.get? i with
    | none => exact .inr rfl
    | some txn => exact .inl ⟨txn, rfl, (h.txnId i txn hget).1⟩
  cases call with
  | begin isolation => exact .begin isolation
  | garbageCollect => exact absurd rfl hgc
  | write i t k d =>
    rcases onTxn i with ⟨txn, hget, rfl⟩ | hnone
    · simp only [step, hget, writeVersion]
      cases hc : m.chain? t k with
      | none => simpa [hc, supersede] using AnyEffect.write t k d hget
      | some old =>
        cases hconf : m.writeConflict txn old.head with
        | true => simpa [hconf] using AnyEffect.same _
        | false => simpa [hconf, hc, supersede] using AnyEffect.write t k d hget
    · simp only [step, hnone]
      exact .same _
  | delete i t k =>
    rcases onTxn i with ⟨txn, hget, rfl⟩ | hnone
    · simp only [step, hget, deleteVersion]
      cases hc : m.chain? t k with
      | none => exact .same _
      | some c =>
        cases hconf : m.writeConflict txn c.head with
        | true => simpa [hconf] using AnyEffect.same _
        | false => simpa [hconf] using AnyEffect.delete t k hget hc
    · simp only [step, hnone]
      exact .same _
  | read i t k =>
    rcases onTxn i with ⟨txn, hget, rfl⟩ | hnone
    · simp only [step, hget, readVersion]
      cases (m.chain? t k).bind (visibleVersion txn) with
      | none => exact .same _
      | some v => exact .read t k hget
    · simp only [step, hnone]
      exact .same _
  | commit i =>
    rcases onTxn i with ⟨txn, hget, rfl⟩ | hnone
    · by_cases hact : txn.state = .active
      · have hstep : m.commitTransaction txn = (m.commit txn, true) := by
          simp [commitTransaction, hact, h.not_conflict, MVCCManager.commit]
        simpa [step, hget, hstep] using AnyEffect.commit hget hact
      · have hstep : m.commitTransaction txn = (m, false) := by
          simp [commitTransaction, hact]
        simpa [step, hget, hstep] using AnyEffect.same _
    · simp only [step, hnone]
      exact .same _
  | abort i =>
    rcases onTxn i with ⟨txn, hget, rfl⟩ | hnone
    · simpa [step, hget, abortTransaction] using AnyEffect.abort hget
    · simp only [step, hnone]
      exact .same _

/-- The call does not abort a transaction that has committed. -/
def SparesCommitted (m : MVCCManager τ κ δ) (call : Call τ κ δ) : Prop :=
  ∀ i, call = .abort i → i ∉ m.committedTxns

theorem AnyEffect.tableWF (h : m.TableWF) (he : AnyEffect m call m') (hspare : SparesCommitted m call) :
    m'.TableWF := by
  cases he with
  | same => exact h
  | begin isolation => exact h.begin isolation
  | @write txn t k d hget => exact h.retouch (txn.addWrite t k) hget rfl rfl rfl _
  | @delete txn c t k hget hc => exact h.retouch (txn.addWrite t k) hget rfl rfl rfl _
  | @read txn t k hget => exact h.retouch (txn.addRead t k) hget rfl rfl rfl _
  | commit hget hact => exact h.commit hget hact
  | @abort txn hget =>
    refine h.doAbort_of_not_committed hget fun hst => ?_
    exact hspare _ rfl ((h.committed _).mpr ⟨txn, hget, hst⟩)

theorem AnyEffect.committed_mono (he : AnyEffect m call m') : m.committedTxns ⊆ m'.committedTxns := by
  cases he with
  | commit => exact fun _ => List.mem_insert_of_mem
  | _ => exact List.Subset.refl _

theorem mem_committed_of_commit (h : m.TableWF) {i : ℕ} (hre : (m.step (.commit i)).2 = .bool true) :
    i ∈ (m.step (.commit i)).1.committedTxns := by
  cases hget : m.txns.get? i with
  | none =>
    simp only [step, hget] at hre
    cases hre
  | some txn =>
    obtain rfl := (h.txnId i txn hget).1
    by_cases hact : txn.state = .active
    · have hstep : m.commitTransaction txn = (m.commit txn, true) := by
        simp [commitTransaction, hact, h.not_conflict, MVCCManager.commit]
      simp only [step, hget, hstep]
      exact (List.mem_insert_self : txn.txnId ∈ m.committedTxns.insert txn.txnId)
    · have hstep : m.commitTransaction txn = (m, false) := by
        simp [commitTransaction, hact]
      simp only [step, hget, hstep] at hre
      cases hre

/-- A transaction that has ended keeps its state. -/
theorem AnyEffect.stateOf_eq (h : m.TableWF) (he : AnyEffect m call m')
    (hspare : SparesCommitted m call) {i : ℕ} {s : TransactionState} (hs : stateOf m i = some s)
    (hne : s ≠ .active) : stateOf m' i = some s := by
  obtain ⟨x, hx, hxs⟩ := Option.map_eq_some_iff.mp hs
  -- where the object of one transaction is replaced by one in the same state
  have hset : ∀ {txn txn' : Transaction τ κ}, m.txns.get? txn.txnId = some txn →
      (txn.txnId = i → txn'.state = s) →
      ((m.txns.set txn.txnId txn').get? i).map Transaction.state = some s := by
    intro txn txn' hget hst
    rw [Dict.get?_set]
    by_cases hid : txn.txnId = i
    · rw [if_pos hid, Option.map_some, hst hid]
    · rw [if_neg hid]
      exact hs
  have hsame : ∀ {txn : Transaction τ κ}, m.txns.get? txn.txnId = some txn → txn.txnId = i →
      txn.state = s := by
    intro txn hget hid
    rw [hid, hx] at hget
    rw [← Option.some.inj hget]
    exact hxs
  cases he with
  | same => exact hs
  | begin isolation =>
    have hne' : m.nextTxnId ≠ i := fun hid => by
      rw [← hid, h.get?_next] at hx
      cases hx
    rw [stateOf, beginTransaction, Dict.get?_set_ne _ _ hne']
    exact hs
  | @write txn t k d hget => exact hset hget fun hid => (hsame hget hid : txn.state = s)
  | @delete txn c t k hget hc => exact hset hget fun hid => (hsame hget hid : txn.state = s)
  | @read txn t k hget => exact hset hget fun hid => (hsame hget hid : txn.state = s)
  | commit hget hact => exact hset hget fun hid => absurd (hsame hget hid ▸ hact) hne
  | @abort txn hget =>
    refine hset hget fun hid => ?_
    have hst := hsame hget hid
    cases s with
    | active => exact absurd rfl hne
    | committed => exact absurd ((h.committed _).mpr ⟨txn, hget, hst⟩) (hspare _ rfl)
    | aborted => rfl

/-! ## Versions of a committed transaction -/

theorem created_cons (i : ℕ) (v : VersionRecord δ) (vs : List (VersionRecord δ)) :
    created i (some ⟨v, vs⟩) = (if v.xmin = i then [v] else []) ++ vs.filter (·.xmin = i) := by
  by_cases hv : v.xmin = i
  · simp [created, VersionChain.versions, hv]
  · simp [created, VersionChain.versions, hv]

theorem forall₂_marked_refl (call : Call τ κ δ) (t : τ) (k : κ) (vs : List (VersionRecord δ)) :
    List.Forall₂ (Marked call t k) vs vs :=
  List.forall₂_same.mpr fun _ _ => ⟨rfl, rfl, .inl rfl⟩

/-- A new stamp on the first version of a list. -/
theorem forall₂_restamp {t : τ} {k : κ} {v v' : VersionRecord δ} (hv : Marked call t k v v') (i : ℕ)
    (vs : List (VersionRecord δ)) :
    List.Forall₂ (Marked call t k) (created i (some ⟨v, vs⟩)) (created i (some ⟨v', vs⟩)) := by
  rw [created_cons, created_cons, hv.2.1]
  split
  · exact .cons hv (forall₂_marked_refl _ _ _ _)
  · exact forall₂_marked_refl _ _ _ _

theorem created_abortChain {i j : ℕ} (hij : j ≠ i) (t : τ) (k : κ) (c : VersionChain δ) :
    List.Forall₂ (Marked (.abort j : Call τ κ δ) t k) (created i (some c))
      (created i (abortChain j c)) := by
  obtain ⟨head, prevs⟩ := c
  have hclear : ∀ v : VersionRecord δ, v.xmax = j →
      Marked (.abort j : Call τ κ δ) t k v { v with xmax := 0 } := by
    intro v hv
    exact ⟨rfl, rfl, .inr (.inr ⟨by rw [hv], rfl⟩)⟩
  rw [abortChain]
  split
  · next hmin =>
    -- the head is not of this transaction
    have hhead : created i (some ⟨head, prevs⟩) = prevs.filter (·.xmin = i) := by
      rw [created_cons, if_neg (hmin ▸ hij), List.nil_append]
    rw [hhead]
    cases prevs with
    | nil => exact .nil
    | cons p ps =>
      have hprev : (p :: ps).filter (·.xmin = i) = created i (some ⟨p, ps⟩) := rfl
      rw [hprev]
      change List.Forall₂ _ _ (created i (some ⟨if p.xmax = j then _ else p, ps⟩))
      split
      · next hmax => exact forall₂_restamp (hclear p hmax) i ps
      · exact forall₂_marked_refl _ _ _ _
  · split
    · next hmax => exact forall₂_restamp (hclear head hmax) i prevs
    · exact forall₂_marked_refl _ _ _ _

theorem AnyEffect.keepsVersions (he : AnyEffect m call m') (hspare : SparesCommitted m call) {i : ℕ}
    (hi : i ∈ m.committedTxns) (t : τ) (k : κ) :
    ∃ new kept, created i (m'.chain? t k) = new ++ kept ∧
      List.Forall₂ (Marked call t k) (created i (m.chain? t k)) kept := by
  have same : m'.chain? t k = m.chain? t k →
      ∃ new kept, created i (m'.chain? t k) = new ++ kept ∧
        List.Forall₂ (Marked call t k) (created i (m.chain? t k)) kept := by
    intro heq
    exact ⟨[], _, by rw [heq, List.nil_append], forall₂_marked_refl _ _ _ _⟩
  cases he with
  | same => exact same rfl
  | begin => exact same rfl
  | read => exact same rfl
  | commit => exact same rfl
  | @write txn t' k' d hget =>
    by_cases hkey : t' = t ∧ k' = k
    · obtain ⟨rfl, rfl⟩ := hkey
      rw [chain?_storeChain, if_pos ⟨rfl, rfl⟩, created_cons]
      refine ⟨_, _, rfl, ?_⟩
      cases hc : m.chain? t' k' with
      | none => exact .nil
      | some old =>
        have hmark : Marked (.write txn.txnId t' k' d) t' k' old.head
            { old.head with xmax := txn.txnId } := ⟨rfl, rfl, .inr (.inl ⟨_, rfl, rfl⟩)⟩
        exact forall₂_restamp hmark i old.prevs
    · exact same (by rw [chain?_storeChain, if_neg hkey])
  | @delete txn c t' k' hget hc =>
    by_cases hkey : t' = t ∧ k' = k
    · obtain ⟨rfl, rfl⟩ := hkey
      rw [chain?_storeChain, if_pos ⟨rfl, rfl⟩, hc]
      have hmark : Marked (.delete txn.txnId t' k' : Call τ κ δ) t' k' c.head
          { c.head with xmax := txn.txnId } := ⟨rfl, rfl, .inr (.inl ⟨_, rfl, rfl⟩)⟩
      exact ⟨[], _, rfl, forall₂_restamp hmark i c.prevs⟩
    · exact same (by rw [chain?_storeChain, if_neg hkey])
  | @abort txn hget =>
    have hne : txn.txnId ≠ i := fun hid => hspare _ rfl (hid ▸ hi)
    rw [chain?_doAbort]
    cases hc : m.chain? t k with
    | none => exact ⟨[], [], rfl, .nil⟩
    | some c => exact ⟨[], _, rfl, created_abortChain hne t k c⟩

/-! ## Whole runs -/

theorem tableWF_of_run (h : (sessions τ κ δ).Run tr m)
    (hspare : ∀ e ∈ tr, SparesCommitted e.pre e.input) : m.TableWF :=
  h.invariant_of (I := fun _ m => m.TableWF) hspare tableWF_init fun _ _ _ _ hwf hen hP =>
    (anyEffect_step hwf hen).tableWF hwf hP

theorem MVCCManager.TableWF.exclusive (h : m.TableWF) : Exclusive m := by
  intro i
  have hstate : ∀ {s s'}, (∃ txn, m.txns.get? i = some txn ∧ txn.state = s) →
      (∃ txn, m.txns.get? i = some txn ∧ txn.state = s') → s = s' := by
    rintro s s' ⟨txn, hget, rfl⟩ ⟨txn', hget', rfl⟩
    rw [hget] at hget'
    rw [Option.some.inj hget']
  refine ⟨?_, ?_, ?_⟩
  · rintro ⟨ha, hc⟩
    cases hstate ((h.active i).mp ha) ((h.committed i).mp hc)
  · rintro ⟨ha, hb⟩
    cases hstate ((h.active i).mp ha) ((h.aborted i).mp hb)
  · rintro ⟨hc, hb⟩
    cases hstate ((h.committed i).mp hc) ((h.aborted i).mp hb)

/-- What holds right after a step of a run holds of all later states, if steps preserve it. -/
theorem stays {P : MVCCManager τ κ δ → Prop} (h : (sessions τ κ δ).Run tr m)
    (hstep : ∀ e ∈ tr, P e.pre → P ((sessions τ κ δ).post e)) {p q : ℕ} {e e' : Step τ κ δ}
    (hp : tr[p]? = some e) (hq : tr[q]? = some e') (hpq : p < q)
    (hpost : P ((sessions τ κ δ).post e)) : P e'.pre := by
  induction q, hpq using Nat.le_induction generalizing e' with
  | base =>
    rcases h.next hp with ⟨x, hx, hpre⟩ | ⟨hlen, -⟩
    · rw [hq] at hx
      obtain rfl := Option.some.inj hx
      exact hpre ▸ hpost
    · have hlt := (List.getElem?_eq_some_iff.mp hq).1
      omega
  | succ q hpq ih =>
    have hlt := (List.getElem?_eq_some_iff.mp hq).1
    obtain ⟨x, hx⟩ : ∃ x, tr[q]? = some x := ⟨_, List.getElem?_eq_getElem (by omega)⟩
    have hx' := hstep x (List.mem_of_getElem? hx) (ih hx)
    rcases h.next hx with ⟨y, hy, hpre⟩ | ⟨hlen, -⟩
    · rw [hq] at hy
      obtain rfl := Option.some.inj hy
      exact hpre ▸ hx'
    · omega

/-- Outcomes are final in every run in which no committed transaction is aborted. -/
theorem outcomes_final (h : (sessions τ κ δ).Run tr m)
    (hspare : ∀ e ∈ tr, SparesCommitted e.pre e.input) : Final Marked tr m := by
  have heffect : ∀ e ∈ tr, e.pre.TableWF ∧ AnyEffect e.pre e.input ((sessions τ κ δ).post e) := by
    intro e he
    obtain ⟨l, r, rfl⟩ := List.append_of_mem he
    obtain ⟨hr, hen, -⟩ := h.split rfl
    have hwf := tableWF_of_run hr fun e' he' => hspare e' (List.mem_append_left _ he')
    exact ⟨hwf, anyEffect_step hwf hen⟩
  refine ⟨?_, ?_, ?_⟩
  · intro x hx
    obtain ⟨l, hl, hr⟩ := h.visited hx
    exact (tableWF_of_run hr fun e he => hspare e (hl.subset he)).exclusive
  · intro i
    -- a state that has changed does not change again
    have hlt : ∀ p q, p < q → At tr p (ChangesState i) → ¬At tr q (ChangesState i) := by
      rintro p q hpq ⟨e, hp, s, s', hs, hs', hne⟩ ⟨e', hq, r, r', hr, hr', hne'⟩
      have hmem := List.mem_of_getElem? hp
      have hended : s' ≠ .active := by
        rintro rfl
        have hkept := (heffect e hmem).2.stateOf_eq (heffect e hmem).1 (hspare e hmem) hs hne
        rw [hs'] at hkept
        exact hne (Option.some.inj hkept).symm
      have hstays := stays (P := fun m => stateOf m i = some s') h
        (fun x hx hpre => (heffect x hx).2.stateOf_eq (heffect x hx).1 (hspare x hx) hpre hended) hp hq
        hpq hs'
      have hmem' := List.mem_of_getElem? hq
      have hkept := (heffect e' hmem').2.stateOf_eq (heffect e' hmem').1 (hspare e' hmem') hstays hended
      rw [hstays] at hr
      rw [hkept] at hr'
      exact hne' (Option.some.inj (hr.symm.trans hr'))
    intro p q hp hq
    rcases Nat.lt_trichotomy p q with hpq | hpq | hpq
    · exact absurd hq (hlt p q hpq hp)
    · exact hpq
    · exact absurd hp (hlt q p hpq hq)
  · rintro i c q ⟨e, hc, hin, hre⟩ hcq hq
    refine ⟨tr[q], List.getElem?_eq_getElem hq, fun t k => ?_⟩
    have hmem := List.getElem_mem hq
    have hcommitted : i ∈ ((sessions τ κ δ).post e).committedTxns := by
      have hwf := (heffect e (List.mem_of_getElem? hc)).1
      rw [(h.event_at hc).2.2] at hre
      change (e.pre.step e.input).2 = _ at hre
      change i ∈ (e.pre.step e.input).1.committedTxns
      rw [hin] at hre ⊢
      exact mem_committed_of_commit hwf hre
    have hi := stays (P := fun m => i ∈ m.committedTxns) h
      (fun x hx hpre => (heffect x hx).2.committed_mono hpre) hc (List.getElem?_eq_getElem hq) hcq
      hcommitted
    exact (heffect _ hmem).2.keepsVersions (hspare _ hmem) hi t k

/-- A committed version is superseded, and the writer aborts; then it is aborted again and writes. -/
def abortedTwice : List (Call ℕ ℕ ℕ) :=
  [.begin .snapshot, .write 1 0 0 10, .commit 1, .begin .snapshot, .write 2 0 0 20, .abort 2,
    .write 2 0 0 30, .abort 2, .commit 2]

theorem outcomes_final_abortedTwice : Final Marked ((sessions ℕ ℕ ℕ).trace init abortedTwice)
    ((sessions ℕ ℕ ℕ).exec init abortedTwice) := by
  have hlegal : (sessions ℕ ℕ ℕ).Legal init abortedTwice := by simp [sessions, abortedTwice]
  refine outcomes_final (Machine.run_of_legal hlegal) ?_
  have hspare : ∀ e ∈ (sessions ℕ ℕ ℕ).trace init abortedTwice, ∀ i ∈ e.pre.committedTxns,
      e.input ≠ .abort i := by decide
  intro e he i hin hi
  exact hspare e he i hi hin

/-- The abort of a later writer clears the xmax that it had set. -/
theorem superseded_not_final : ¬∀ (tr : History ℕ ℕ ℕ) (m : MVCCManager ℕ ℕ ℕ),
    (sessions ℕ ℕ ℕ).Run tr m → Final Superseded tr m := by
  intro h
  have hlegal : (sessions ℕ ℕ ℕ).Legal init abortedTwice := by simp [sessions, abortedTwice]
  obtain ⟨e, he, hkept⟩ := (h _ _ (Machine.run_of_legal hlegal)).kept 1 2 5 ⟨_, rfl, rfl, rfl⟩ (by decide)
    (by decide)
  obtain rfl := Option.some.inj he
  obtain ⟨new, kept, hpost, hall⟩ := hkept 0 0
  have hbefore : created 1 (((sessions ℕ ℕ ℕ).exec init (abortedTwice.take 5)).chain? 0 0) =
      [⟨10, 1, 2⟩] := by decide
  have hafter : created 1 (((sessions ℕ ℕ ℕ).exec init (abortedTwice.take 6)).chain? 0 0) =
      [⟨10, 1, 0⟩] := by decide
  change created 1 (((sessions ℕ ℕ ℕ).exec init (abortedTwice.take 6)).chain? 0 0) = _ at hpost
  change List.Forall₂ _ (created 1 (((sessions ℕ ℕ ℕ).exec init (abortedTwice.take 5)).chain? 0 0)) _
    at hall
  rw [hafter] at hpost
  rw [hbefore] at hall
  cases hall with
  | @cons _ v' _ rest hv hrest =>
    cases hrest
    have hmem : v' ∈ [(⟨10, 1, 0⟩ : VersionRecord ℕ)] := by
      rw [hpost]
      exact List.mem_append_right _ List.mem_cons_self
    obtain rfl := List.mem_singleton.mp hmem
    -- 0 is neither the old xmax nor the id of a writer
    rcases hv.2.2 with hsame | ⟨j, hcall, -⟩
    · cases hsame
    · cases hcall

end PySQL.Mvcc
