import PySQL.Lib.Machine
import PySQL.Lib.Quorum
import PySQL.Raft.Node

/-!
# A cluster of Raft nodes and its driver

The repository has the node, not the driver that moves messages between nodes.  Here every message
ever sent stays available, so it may be delivered late, in any order, more than once or never.  A
driver promotes a candidate whose granted votes make a majority, sends AppendEntries from leaders
to their peers, and stores the match index of successful replies of the leader's term.
-/

namespace PySQL.Raft

open Lib

/-- The members of a cluster, each with all the others as its peers. -/
structure Cluster (ν : Type*) [DecidableEq ν] where
  members : List ν
  nodup : members.Nodup
  peers : ν → List ν
  others : ∀ i ∈ members, (peers i).Perm (members.erase i)

def Cluster.ofMembers {ν : Type*} [DecidableEq ν] (members : List ν) (h : members.Nodup) :
    Cluster ν :=
  ⟨members, h, members.erase, fun _ _ => List.Perm.refl _⟩

inductive Message (ν γ : Type*) where
  | requestVote (dst : ν) (args : RequestVoteArgs ν)
  | voteReply (src dst : ν) (reply : RequestVoteReply)
  | appendEntries (dst : ν) (args : AppendEntriesArgs ν γ)
  | appendReply (src dst : ν) (reply : AppendEntriesReply)
  deriving DecidableEq, Repr

/-- The nodes, and all messages sent so far. -/
structure System (ν γ : Type*) where
  node : ν → RaftNode ν γ
  messages : List (Message ν γ)

inductive Action (ν γ : Type*) where
  | startElection (i : ν)
  | promote (i : ν)
  | propose (i : ν) (command : Option γ)
  | sendAppend (i dst : ν) (args : AppendEntriesArgs ν γ)
  | deliverVoteRequest (dst : ν) (args : RequestVoteArgs ν)
  | deliverAppend (dst : ν) (args : AppendEntriesArgs ν γ)
  | storeMatch (i src : ν) (reply : AppendEntriesReply)
  | updateCommit (i : ν)
  deriving DecidableEq, Repr

/-- The node whose state an action may change. -/
def Action.actor {ν γ : Type*} : Action ν γ → ν
  | startElection i | promote i | propose i _ | sendAppend i _ _ | storeMatch i _ _
  | updateCommit i => i
  | deliverVoteRequest dst _ | deliverAppend dst _ => dst

/-- What a leader may put into an AppendEntries message. -/
abbrev AppendRule (ν γ : Type*) := RaftNode ν γ → AppendEntriesArgs ν γ → Prop

section Rules

variable {ν γ : Type*}

/-- Anything, in the leader's own term. -/
def anyEntries : AppendRule ν γ := fun _ _ => True

/-- Any position of the leader's log with its term, and a run of entries right after it. -/
def fromLog : AppendRule ν γ := fun n args =>
  n.log[args.prevLogIndex]?.map LogEntry.term = some args.prevLogTerm ∧
    args.entries <+: n.log.drop (args.prevLogIndex + 1)

/-- Entries of the leader's log with its commit index. -/
def fromLogAndCommit : AppendRule ν γ := fun n args =>
  fromLog n args ∧ args.leaderCommit = n.commitIndex

instance [DecidableEq γ] (n : RaftNode ν γ) (args : AppendEntriesArgs ν γ) :
    Decidable (fromLog n args) :=
  inferInstanceAs (Decidable (_ ∧ _))

instance [DecidableEq γ] (n : RaftNode ν γ) (args : AppendEntriesArgs ν γ) :
    Decidable (fromLogAndCommit n args) :=
  inferInstanceAs (Decidable (_ ∧ _))

instance (n : RaftNode ν γ) (args : AppendEntriesArgs ν γ) : Decidable (anyEntries n args) :=
  inferInstanceAs (Decidable True)

end Rules

variable {ν γ : Type*} [DecidableEq ν] [DecidableEq γ]

namespace System

def init (C : Cluster ν) : System ν γ where
  node i := { nodeId := i, peers := C.peers i }
  messages := []

def setNode (s : System ν γ) (i : ν) (n : RaftNode ν γ) : System ν γ :=
  { s with node := Function.update s.node i n }

def send (s : System ν γ) (ms : List (Message ν γ)) : System ν γ :=
  { s with messages := s.messages ++ ms }

/-- The peers that granted `i` their vote in its current term. -/
def granters (s : System ν γ) (i : ν) : List ν :=
  (s.node i).peers.filter fun v =>
    .voteReply v i { term := (s.node i).currentTerm, voteGranted := true } ∈ s.messages

def enabled (C : Cluster ν) (rule : AppendRule ν γ) (s : System ν γ) : Action ν γ → Prop
  | .startElection i => i ∈ C.members
  | .promote i => i ∈ C.members ∧ (s.node i).state = .candidate ∧
      (s.node i).majority ≤ 1 + (s.granters i).length
  | .propose i _ => i ∈ C.members
  | .sendAppend i dst args => i ∈ C.members ∧ dst ∈ (s.node i).peers ∧
      (s.node i).state = .leader ∧ args.term = (s.node i).currentTerm ∧ args.leaderId = i ∧
      rule (s.node i) args
  | .deliverVoteRequest dst args => .requestVote dst args ∈ s.messages
  | .deliverAppend dst args => .appendEntries dst args ∈ s.messages
  | .storeMatch i src reply => .appendReply src i reply ∈ s.messages ∧ reply.success = true ∧
      (s.node i).state = .leader ∧ reply.term = (s.node i).currentTerm
  | .updateCommit i => i ∈ C.members

/-- The next system, and the entries that the acting node applies. -/
def step (s : System ν γ) : Action ν γ → System ν γ × List (ℕ × LogEntry γ)
  | .startElection i =>
    let r := (s.node i).startElection
    ((s.setNode i r.1).send ((r.2.getD []).map fun p => .requestVote p.1 p.2), [])
  | .promote i => (s.setNode i (s.node i).promoteToLeader, [])
  | .propose i command => (s.setNode i ((s.node i).propose command).1, [])
  | .sendAppend _ dst args => (s.send [.appendEntries dst args], [])
  | .deliverVoteRequest dst args =>
    let r := (s.node dst).handleRequestVote args
    ((s.setNode dst r.1).send (r.2.toList.map (.voteReply dst args.candidateId)), [])
  | .deliverAppend dst args =>
    let r := (s.node dst).handleAppendEntries args
    ((s.setNode dst r.1).send [.appendReply dst args.leaderId r.2.1], r.2.2)
  | .storeMatch i src reply =>
    (s.setNode i { s.node i with
      matchIndex := (s.node i).matchIndex.set src reply.matchIndex }, [])
  | .updateCommit i =>
    let r := (s.node i).updateLeaderCommit
    (s.setNode i r.1, r.2.2)

instance (C : Cluster ν) (rule : AppendRule ν γ) [∀ n args, Decidable (rule n args)]
    (s : System ν γ) (a : Action ν γ) : Decidable (s.enabled C rule a) :=
  match a with
  | .startElection i | .propose i _ | .updateCommit i =>
    inferInstanceAs (Decidable (i ∈ C.members))
  | .promote i => inferInstanceAs (Decidable (i ∈ C.members ∧ (s.node i).state = .candidate ∧
      (s.node i).majority ≤ 1 + (s.granters i).length))
  | .sendAppend i dst args => inferInstanceAs (Decidable (i ∈ C.members ∧
      dst ∈ (s.node i).peers ∧ (s.node i).state = .leader ∧ args.term = (s.node i).currentTerm ∧
      args.leaderId = i ∧ rule (s.node i) args))
  | .deliverVoteRequest dst args =>
    inferInstanceAs (Decidable (.requestVote dst args ∈ s.messages))
  | .deliverAppend dst args =>
    inferInstanceAs (Decidable (.appendEntries dst args ∈ s.messages))
  | .storeMatch i src reply => inferInstanceAs (Decidable (.appendReply src i reply ∈ s.messages ∧
      reply.success = true ∧ (s.node i).state = .leader ∧ reply.term = (s.node i).currentTerm))

end System

def machine (C : Cluster ν) (rule : AppendRule ν γ) :
    Machine (System ν γ) (Action ν γ) (List (ℕ × LogEntry γ)) where
  init := System.init C
  enabled := System.enabled C rule
  step := System.step

instance (C : Cluster ν) (rule : AppendRule ν γ) [∀ n args, Decidable (rule n args)]
    (s : System ν γ) (a : Action ν γ) : Decidable ((machine C rule).enabled s a) :=
  inferInstanceAs (Decidable (s.enabled C rule a))

abbrev Step (ν γ : Type*) := Event (System ν γ) (Action ν γ) (List (ℕ × LogEntry γ))

abbrev History (ν γ : Type*) := List (Step ν γ)

end PySQL.Raft
