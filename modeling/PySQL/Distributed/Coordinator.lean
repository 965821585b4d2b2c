import PySQL.Lib.Sweep
import PySQL.Query.Operators

/-!
# The two-phase commit coordinator

The coordinator runs each participant's command with the database's own `execute`, which commits by
itself.  A participant that fails ends the loop; nothing is rolled back.
-/

namespace PySQL.Distributed

open Lib Query

inductive TransactionPhase where
  | init | preparing | prepared | committing | committed | aborting | aborted
  deriving DecidableEq, Repr

structure DistributedTxnState where
  txnId : String
  phase : TransactionPhase := .init
  participants : List String := []
  votes : Dict String Bool := Dict.empty

/-- What a call of the coordinator may raise. -/
inductive CoordinatorError (ε : Type*) where
  | keyError (nodeId : String)
  | raised (e : ε)
  deriving DecidableEq, Repr

/-- The two methods of a database that the coordinator calls; what they change stays changed when
they raise. -/
structure Engine (δ ε : Type*) where
  execute : δ → String → δ × Except ε QueryResult
  checkpoint : δ → δ × Except ε Unit

structure HashPartitioner where
  shards : List String

/-- Route a record key, given its text, to its shard; `md5` is the digest read as a number.  Without
shards, the remainder raises ZeroDivisionError. -/
def HashPartitioner.getShard (md5 : String → ℕ) (p : HashPartitioner) (key : String) :
    Option String :=
  if p.shards.length = 0 then none else p.shards[md5 key % p.shards.length]?

structure DistributedCoordinator (δ : Type*) where
  nodes : Dict String δ
  partitioner : HashPartitioner := ⟨nodes.keys⟩
  activeTxns : Dict String DistributedTxnState := Dict.empty

variable {δ ε : Type*}

namespace DistributedCoordinator

def beginDistributedTxn (c : DistributedCoordinator δ) (txnId : String)
    (participants : List String) : DistributedCoordinator δ × DistributedTxnState :=
  let state : DistributedTxnState := { txnId, participants }
  ({ c with activeTxns := c.activeTxns.set txnId state }, state)

/-- The loop of phase 1: the nodes, the votes and `all_ok` after it. -/
def prepare (db : Engine δ ε) : List (String × String) → Dict String δ → Dict String Bool →
    Dict String δ × Dict String Bool × Bool
  | [], nodes, votes => (nodes, votes, true)
  | (nodeId, cmd) :: rest, nodes, votes =>
    match nodes.get? nodeId with
    | none => (nodes, votes.set nodeId false, false)
    | some node =>
      match db.execute node cmd with
      | (node, .ok _) => prepare db rest (nodes.set nodeId node) (votes.set nodeId true)
      | (node, .error _) => (nodes.set nodeId node, votes.set nodeId false, false)

/-- The commit loop of phase 2.  The abort loop looks nodes up and does nothing with them. -/
def finalize (db : Engine δ ε) : List String → Dict String δ →
    Dict String δ × Except (CoordinatorError ε) Unit
  | [], nodes => (nodes, .ok ())
  | nodeId :: rest, nodes =>
    match nodes.get? nodeId with
    | none => (nodes, .error (.keyError nodeId))
    | some node =>
      match db.checkpoint node with
      | (node, .ok _) => finalize db rest (nodes.set nodeId node)
      | (node, .error e) => (nodes.set nodeId node, .error (.raised e))

/-- Execute a two-phase commit transaction: True if committed, False if aborted. -/
def execute2pc (db : Engine δ ε) (c : DistributedCoordinator δ) (txnId : String)
    (commands : Dict String String) : DistributedCoordinator δ × Except (CoordinatorError ε) Bool :=
  let (c, state) := c.beginDistributedTxn txnId commands.keys
  let (nodes, votes, allOk) := prepare db commands.items c.nodes state.votes
  let record (nodes : Dict String δ) (phase : TransactionPhase) : DistributedCoordinator δ :=
    { c with nodes, activeTxns := c.activeTxns.set txnId { state with phase, votes } }
  if allOk then
    match finalize db commands.keys nodes with
    | (nodes, .ok _) => (record nodes .committed, .ok true)
    | (nodes, .error e) => (record nodes .committing, .error e)
  else (record nodes .aborted, .ok false)

/-- The loop of a scatter-gather query over the nodes that are left. -/
def gather (db : Engine δ ε) (sql : String) : List (String × δ) → List String → List Row →
    List (String × δ) × Except ε (List String × List Row)
  | [], schema, rows => ([], .ok (schema, rows))
  | (nodeId, node) :: rest, schema, rows =>
    match db.execute node sql with
    | (node, .error e) => ((nodeId, node) :: rest, .error e)
    | (node, .ok res) =>
      let schema := if schema.isEmpty && !res.columns.isEmpty then res.columns else schema
      let r := gather db sql rest schema (rows ++ res.rows)
      ((nodeId, node) :: r.1, r.2)

theorem keys_gather (db : Engine δ ε) (sql : String) (nodes : List (String × δ))
    (schema : List String) (rows : List Row) :
    (gather db sql nodes schema rows).1.map Prod.fst = nodes.map Prod.fst := by
  induction nodes generalizing schema rows with
  | nil => rfl
  | cons p rest ih =>
    unfold gather
    split
    · rfl
    · rw [List.map_cons, List.map_cons, ih]

/-- Scatter-gather query execution across all nodes. -/
def executeScatterGather (db : Engine δ ε) (c : DistributedCoordinator δ) (sql : String) :
    DistributedCoordinator δ × Except ε QueryResult :=
  let r := gather db sql c.nodes.items [] []
  ({ c with nodes := ⟨r.1, by rw [keys_gather]; exact c.nodes.nodup⟩ },
    r.2.map fun p => { columns := p.1, rows := p.2, affectedRows := p.2.length })

end DistributedCoordinator

end PySQL.Distributed
