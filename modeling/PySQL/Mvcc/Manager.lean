import PySQL.Lib.Dict
import PySQL.Lib.Machine

/-!
# The MVCC manager

`VersionRecord.prev_version` links are the list after the head of a chain: no version is linked
from two places, so cutting or popping a link is cutting or popping the list.  A `Transaction`
object is shared between its caller and `_active_txns`; the manager here holds every object in one
table by its id, and `_active_txns` is the list of its keys.  Wall-clock fields are left out.
-/

namespace PySQL.Mvcc

open Lib

inductive TransactionState where
  | active | committed | aborted
  deriving DecidableEq, Repr

inductive IsolationLevel where
  | readUncommitted | readCommitted | repeatableRead | snapshot | serializable
  deriving DecidableEq, Repr

/-- A single version of a logical record; `xmax = 0` is a live version. -/
structure VersionRecord (δ : Type*) where
  data : δ
  xmin : ℕ := 0
  xmax : ℕ := 0
  deriving DecidableEq, Repr

/-- The head of a version chain and the versions its `prev_version` links lead to. -/
structure VersionChain (δ : Type*) where
  head : VersionRecord δ
  prevs : List (VersionRecord δ) := []
  deriving DecidableEq, Repr

structure TransactionSnapshot where
  txnId : ℕ
  activeTxns : List ℕ
  minActiveTxn : ℕ := 0
  nextTxnId : ℕ := 0
  committed : Option (List ℕ) := none
  deriving DecidableEq, Repr

/-- Check if a transaction was committed at snapshot time. -/
def TransactionSnapshot.isCommitted (snapshot : TransactionSnapshot) (txnId : ℕ) : Bool :=
  match snapshot.committed with
  | some committed => decide (txnId ∈ committed)
  | none => decide (txnId < snapshot.nextTxnId) && decide (txnId ∉ snapshot.activeTxns)

def VersionRecord.isVisibleTo {δ : Type*} (v : VersionRecord δ) (txnId : ℕ)
    (snapshot : TransactionSnapshot) : Bool :=
  if v.xmin = txnId then
    if v.xmax = txnId then false
    else if v.xmax = 0 then true
    else !snapshot.isCommitted v.xmax
  else if !snapshot.isCommitted v.xmin then false
  else if v.xmin ∈ snapshot.activeTxns then false
  else if v.xmax = 0 then true
  else if v.xmax = txnId then false
  else if !snapshot.isCommitted v.xmax then true
  else if v.xmax ∈ snapshot.activeTxns then true
  else false

structure Transaction (τ κ : Type*) where
  txnId : ℕ
  state : TransactionState := .active
  isolationLevel : IsolationLevel := .snapshot
  snapshot : TransactionSnapshot
  writeSet : List (τ × κ) := []
  readSet : List (τ × κ) := []
  deriving DecidableEq, Repr

variable {τ κ δ : Type*} [DecidableEq τ] [DecidableEq κ]

def Transaction.addWrite (txn : Transaction τ κ) (table : τ) (key : κ) : Transaction τ κ :=
  { txn with writeSet := txn.writeSet.insert (table, key) }

def Transaction.addRead (txn : Transaction τ κ) (table : τ) (key : κ) : Transaction τ κ :=
  { txn with readSet := txn.readSet.insert (table, key) }

structure MVCCManager (τ κ δ : Type*) where
  nextTxnId : ℕ := 1
  txns : Dict ℕ (Transaction τ κ) := Dict.empty
  activeTxns : List ℕ := []
  committedTxns : List ℕ := []
  abortedTxns : List ℕ := []
  versions : Dict τ (Dict κ (VersionChain δ)) := Dict.empty

namespace MVCCManager

def init : MVCCManager τ κ δ := {}

/-- The version chain of a key, if the key is present. -/
def chain? (m : MVCCManager τ κ δ) (table : τ) (key : κ) : Option (VersionChain δ) :=
  (m.versions.get? table).bind (·.get? key)

def beginTransaction (m : MVCCManager τ κ δ) (isolation : IsolationLevel) :
    MVCCManager τ κ δ × ℕ :=
  let txnId := m.nextTxnId
  let snapshot : TransactionSnapshot :=
    { txnId
      activeTxns := m.activeTxns
      minActiveTxn := m.activeTxns.min?.getD txnId
      nextTxnId := txnId
      committed := some m.committedTxns }
  let txn : Transaction τ κ := { txnId, isolationLevel := isolation, snapshot }
  ({ m with
      nextTxnId := m.nextTxnId + 1
      txns := m.txns.set txnId txn
      activeTxns := m.activeTxns ++ [txnId] }, txnId)

/-- What `_do_abort` makes of one chain; `none` deletes the key. -/
def abortChain (txnId : ℕ) (c : VersionChain δ) : Option (VersionChain δ) :=
  if c.head.xmin = txnId then
    match c.prevs with
    | prev :: rest => some ⟨if prev.xmax = txnId then { prev with xmax := 0 } else prev, rest⟩
    | [] => none
  else if c.head.xmax = txnId then
    some { c with head := { c.head with xmax := 0 } }
  else
    some c

def doAbort (m : MVCCManager τ κ δ) (txn : Transaction τ κ) : MVCCManager τ κ δ :=
  { m with
    txns := m.txns.set txn.txnId { txn with state := .aborted }
    abortedTxns := m.abortedTxns.insert txn.txnId
    activeTxns := m.activeTxns.erase txn.txnId
    versions := m.versions.map fun _ vs => vs.filterMap fun _ c => abortChain txn.txnId c }

/-- The test of one entry of `_active_txns` in the conflict loop of `commit_transaction`. -/
def commitConflict (m : MVCCManager τ κ δ) (txn : Transaction τ κ) (other : ℕ) : Bool :=
  match m.txns.get? other with
  | some otherTxn =>
    decide (otherTxn.txnId ≠ txn.txnId) && decide (otherTxn.state = .committed) &&
      txn.writeSet.any (· ∈ otherTxn.writeSet)
  | none => false

def commitTransaction (m : MVCCManager τ κ δ) (txn : Transaction τ κ) :
    MVCCManager τ κ δ × Bool :=
  if txn.state ≠ .active then (m, false)
  else if m.activeTxns.any (m.commitConflict txn) then (m.doAbort txn, false)
  else
    ({ m with
        txns := m.txns.set txn.txnId { txn with state := .committed }
        committedTxns := m.committedTxns.insert txn.txnId
        activeTxns := m.activeTxns.erase txn.txnId }, true)

def abortTransaction (m : MVCCManager τ κ δ) (txn : Transaction τ κ) : MVCCManager τ κ δ :=
  m.doAbort txn

/-- Another active transaction is deleting or superseding `v`. -/
def writeConflict (m : MVCCManager τ κ δ) (txn : Transaction τ κ) (v : VersionRecord δ) : Bool :=
  decide (v.xmax ≠ 0) && decide (v.xmax ≠ txn.txnId) && decide (v.xmax ∈ m.activeTxns)

/-- The manager after the chain of a key is replaced and the key added to the write set. -/
def storeChain (m : MVCCManager τ κ δ) (txn : Transaction τ κ) (table : τ) (key : κ)
    (c : VersionChain δ) : MVCCManager τ κ δ :=
  { m with
    versions := m.versions.set table (((m.versions.get? table).getD Dict.empty).set key c)
    txns := m.txns.set txn.txnId (txn.addWrite table key) }

def writeVersion (m : MVCCManager τ κ δ) (txn : Transaction τ κ) (table : τ) (key : κ)
    (data : δ) : MVCCManager τ κ δ × Bool :=
  match m.chain? table key with
  | some old =>
    if m.writeConflict txn old.head then (m, false)
    else
      (m.storeChain txn table key
        ⟨{ data, xmin := txn.txnId }, { old.head with xmax := txn.txnId } :: old.prevs⟩, true)
  | none => (m.storeChain txn table key ⟨{ data, xmin := txn.txnId }, []⟩, true)

/-- The walk of `read_version` along a chain. -/
def visibleVersion (txn : Transaction τ κ) (c : VersionChain δ) : Option (VersionRecord δ) :=
  (c.head :: c.prevs).find? (·.isVisibleTo txn.txnId txn.snapshot)

def readVersion (m : MVCCManager τ κ δ) (txn : Transaction τ κ) (table : τ) (key : κ) :
    MVCCManager τ κ δ × Option δ :=
  match (m.chain? table key).bind (visibleVersion txn) with
  | some v => ({ m with txns := m.txns.set txn.txnId (txn.addRead table key) }, some v.data)
  | none => (m, none)

def deleteVersion (m : MVCCManager τ κ δ) (txn : Transaction τ κ) (table : τ) (key : κ) :
    MVCCManager τ κ δ × Bool :=
  match m.chain? table key with
  | some c =>
    if m.writeConflict txn c.head then (m, false)
    else (m.storeChain txn table key { c with head := { c.head with xmax := txn.txnId } }, true)
  | none => (m, false)

/-- The inner loop of `garbage_collect` on the versions after a head, and whether it cut. -/
def trimPrevs (minActive : ℕ) (committed : List ℕ) :
    List (VersionRecord δ) → List (VersionRecord δ) × Bool
  | prev :: next :: rest =>
    if prev.xmax ≠ 0 ∧ prev.xmax < minActive ∧ prev.xmax ∈ committed then ([prev], true)
    else
      let trimmed := trimPrevs minActive committed (next :: rest)
      (prev :: trimmed.1, trimmed.2)
  | prevs => (prevs, false)

def minActive (m : MVCCManager τ κ δ) : ℕ := m.activeTxns.min?.getD m.nextTxnId

def trimChain (m : MVCCManager τ κ δ) (c : VersionChain δ) : VersionChain δ :=
  { c with prevs := (trimPrevs m.minActive m.committedTxns c.prevs).1 }

def garbageCollect (m : MVCCManager τ κ δ) : MVCCManager τ κ δ × ℕ :=
  ({ m with versions := m.versions.map fun _ vs => vs.map fun _ c => m.trimChain c },
    (m.versions.values.map fun vs =>
      vs.values.countP fun c => (trimPrevs m.minActive m.committedTxns c.prevs).2).sum)

end MVCCManager

/-! ## The calls clients make -/

inductive Call (τ κ δ : Type*) where
  | begin (isolation : IsolationLevel)
  | write (txnId : ℕ) (table : τ) (key : κ) (data : δ)
  | delete (txnId : ℕ) (table : τ) (key : κ)
  | read (txnId : ℕ) (table : τ) (key : κ)
  | commit (txnId : ℕ)
  | abort (txnId : ℕ)
  | garbageCollect
  deriving DecidableEq, Repr

inductive Reply (δ : Type*) where
  | txn (txnId : ℕ)
  | bool (b : Bool)
  | data (d : Option δ)
  | count (n : ℕ)
  | unit
  deriving DecidableEq, Repr

/-- The transaction a call is made on. -/
def Call.txnId? : Call τ κ δ → Option ℕ
  | write i _ _ _ | delete i _ _ | read i _ _ | commit i | abort i => some i
  | begin _ | garbageCollect => none

namespace MVCCManager

def IsActive (m : MVCCManager τ κ δ) (txnId : ℕ) : Prop :=
  ∃ txn, m.txns.get? txnId = some txn ∧ txn.state = .active

/-- A transaction acts only while it is active. -/
def enabled (m : MVCCManager τ κ δ) (call : Call τ κ δ) : Prop :=
  ∀ i, call.txnId? = some i → m.IsActive i

instance (m : MVCCManager τ κ δ) (txnId : ℕ) : Decidable (m.IsActive txnId) :=
  match h : m.txns.get? txnId with
  | some txn => decidable_of_iff (txn.state = .active) (by simp [IsActive, h])
  | none => isFalse (by simp [IsActive, h])

instance (m : MVCCManager τ κ δ) (call : Call τ κ δ) : Decidable (m.enabled call) :=
  match h : call.txnId? with
  | some i => decidable_of_iff (m.IsActive i) (by simp [enabled, h])
  | none => isTrue (by simp [enabled, h])

def step (m : MVCCManager τ κ δ) (call : Call τ κ δ) : MVCCManager τ κ δ × Reply δ :=
  let onTxn (i : ℕ) (f : Transaction τ κ → MVCCManager τ κ δ × Reply δ) :=
    match m.txns.get? i with
    | some txn => f txn
    | none => (m, .unit)
  match call with
  | .begin isolation => let r := m.beginTransaction isolation; (r.1, .txn r.2)
  | .write i table key data =>
    onTxn i fun txn => let r := m.writeVersion txn table key data; (r.1, .bool r.2)
  | .delete i table key => onTxn i fun txn => let r := m.deleteVersion txn table key; (r.1, .bool r.2)
  | .read i table key => onTxn i fun txn => let r := m.readVersion txn table key; (r.1, .data r.2)
  | .commit i => onTxn i fun txn => let r := m.commitTransaction txn; (r.1, .bool r.2)
  | .abort i => onTxn i fun txn => (m.abortTransaction txn, .unit)
  | .garbageCollect => let r := m.garbageCollect; (r.1, .count r.2)

end MVCCManager

/-- Any number of transactions over one manager, in any interleaving of their calls. -/
def machine (τ κ δ : Type*) [DecidableEq τ] [DecidableEq κ] :
    Machine (MVCCManager τ κ δ) (Call τ κ δ) (Reply δ) where
  init := MVCCManager.init
  enabled := MVCCManager.enabled
  step := MVCCManager.step

instance (m : MVCCManager τ κ δ) (call : Call τ κ δ) :
    Decidable ((machine τ κ δ).enabled m call) :=
  inferInstanceAs (Decidable (m.enabled call))

end PySQL.Mvcc
