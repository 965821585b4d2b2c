import PySQL.Lib.Dict

/-!
# A Raft node

Python would raise `IndexError` on `self.log[-1]` of an empty log; the two methods that read it have
no reply there, and keep what they had already assigned.  Timers are left out.
-/

namespace PySQL.Raft

open Lib

inductive NodeState where
  | follower | candidate | leader
  deriving DecidableEq, Repr

/-- A log entry; `command` is a SQL statement, a configuration change or None. -/
structure LogEntry (γ : Type*) where
  term : ℕ
  index : ℕ
  command : Option γ
  deriving DecidableEq, Repr

structure RequestVoteArgs (ν : Type*) where
  term : ℕ
  candidateId : ν
  lastLogIndex : ℕ
  lastLogTerm : ℕ
  deriving DecidableEq, Repr

structure RequestVoteReply where
  term : ℕ
  voteGranted : Bool
  deriving DecidableEq, Repr

structure AppendEntriesArgs (ν γ : Type*) where
  term : ℕ
  leaderId : ν
  prevLogIndex : ℕ
  prevLogTerm : ℕ
  entries : List (LogEntry γ)
  leaderCommit : ℕ
  deriving DecidableEq, Repr

structure AppendEntriesReply where
  term : ℕ
  success : Bool
  matchIndex : ℕ := 0
  deriving DecidableEq, Repr

/-- The entry every log begins with. -/
def dummyEntry (γ : Type*) : LogEntry γ := { term := 0, index := 0, command := none }

structure RaftNode (ν γ : Type*) where
  nodeId : ν
  peers : List ν
  currentTerm : ℕ := 0
  votedFor : Option ν := none
  log : List (LogEntry γ) := [dummyEntry γ]
  commitIndex : ℕ := 0
  lastApplied : ℕ := 0
  state : NodeState := .follower
  nextIndex : Dict ν ℕ := Dict.empty
  matchIndex : Dict ν ℕ := Dict.empty

variable {ν γ : Type*} [DecidableEq ν]

namespace RaftNode

def adoptTerm (n : RaftNode ν γ) (term : ℕ) : RaftNode ν γ :=
  { n with currentTerm := term, state := .follower, votedFor := none }

/-- A vote request of a higher term makes the node a follower in that term. -/
def observeTerm (n : RaftNode ν γ) (term : ℕ) : RaftNode ν γ :=
  if term > n.currentTerm then n.adoptTerm term else n

/-- A message of a leader also does so in the node's own term, unless it is a follower already. -/
def acceptLeader (n : RaftNode ν γ) (term : ℕ) : RaftNode ν γ :=
  if term > n.currentTerm ∨ n.state ≠ .follower then n.adoptTerm term else n

/-- A candidate whose last entry is at `lastIndex` with term `lastTerm` is as up to date as a log
that ends with `last`. -/
def upToDate (last : LogEntry γ) (lastTerm lastIndex : ℕ) : Bool :=
  decide (lastTerm > last.term) || decide (lastTerm = last.term ∧ lastIndex ≥ last.index)

/-- Handle an incoming RequestVote RPC from a candidate. -/
def handleRequestVote (n : RaftNode ν γ) (args : RequestVoteArgs ν) :
    RaftNode ν γ × Option RequestVoteReply :=
  if args.term < n.currentTerm then (n, some { term := n.currentTerm, voteGranted := false })
  else
    let n := n.observeTerm args.term
    match n.log.getLast? with
    | none => (n, none)
    | some last =>
      if (n.votedFor = none ∨ n.votedFor = some args.candidateId) ∧
          upToDate last args.lastLogTerm args.lastLogIndex then
        ({ n with votedFor := some args.candidateId },
          some { term := n.currentTerm, voteGranted := true })
      else (n, some { term := n.currentTerm, voteGranted := false })

/-- One turn of the loop that appends the entries of a message. -/
def appendEntry (log : List (LogEntry γ)) (entry : LogEntry γ) : List (LogEntry γ) :=
  match log[entry.index]? with
  | some old => if old.term ≠ entry.term then log.take entry.index ++ [entry] else log
  | none => log ++ [entry]

/-- Apply committed log entries to the state machine: the node, and the entries at the indices that
`last_applied` passes.  `apply_fn` is called on those that carry a command. -/
def applyEntries (n : RaftNode ν γ) : RaftNode ν γ × List (ℕ × LogEntry γ) :=
  ({ n with lastApplied := max n.lastApplied n.commitIndex },
    (List.range' (n.lastApplied + 1) (n.commitIndex - n.lastApplied)).filterMap fun k =>
      n.log[k]?.map (k, ·))

/-- Advance the commit index of a follower. -/
def advanceCommit (n : RaftNode ν γ) (leaderCommit : ℕ) :
    RaftNode ν γ × List (ℕ × LogEntry γ) :=
  if leaderCommit > n.commitIndex then
    applyEntries { n with commitIndex := min leaderCommit (n.log.length - 1) }
  else (n, [])

/-- Handle an incoming AppendEntries RPC from the leader. -/
def handleAppendEntries (n : RaftNode ν γ) (args : AppendEntriesArgs ν γ) :
    RaftNode ν γ × AppendEntriesReply × List (ℕ × LogEntry γ) :=
  if args.term < n.currentTerm then (n, { term := n.currentTerm, success := false }, [])
  else
    let n := n.acceptLeader args.term
    match n.log[args.prevLogIndex]? with
    | none => (n, { term := n.currentTerm, success := false }, [])
    | some prev =>
      if prev.term ≠ args.prevLogTerm then
        ({ n with log := n.log.take args.prevLogIndex },
          { term := n.currentTerm, success := false }, [])
      else
        let r := advanceCommit { n with log := args.entries.foldl appendEntry n.log }
          args.leaderCommit
        (r.1, { term := n.currentTerm, success := true, matchIndex := r.1.log.length - 1 }, r.2)

/-- Transition to candidate and construct the vote requests for the peers. -/
def startElection (n : RaftNode ν γ) :
    RaftNode ν γ × Option (List (ν × RequestVoteArgs ν)) :=
  let n := { n with
    state := .candidate, currentTerm := n.currentTerm + 1, votedFor := some n.nodeId }
  (n, n.log.getLast?.map fun last =>
    n.peers.map fun peer =>
      (peer,
        { term := n.currentTerm
          candidateId := n.nodeId
          lastLogIndex := last.index
          lastLogTerm := last.term }))

/-- Promote this candidate node to leader. -/
def promoteToLeader (n : RaftNode ν γ) : RaftNode ν γ :=
  { n with
    state := .leader
    nextIndex := n.peers.foldl (fun d peer => d.set peer n.log.length) n.nextIndex
    matchIndex := n.peers.foldl (fun d peer => d.set peer 0) n.matchIndex }

/-- Propose a command to be replicated by the leader: its log index, None if not leader. -/
def propose (n : RaftNode ν γ) (command : Option γ) : RaftNode ν γ × Option ℕ :=
  if n.state ≠ .leader then (n, none)
  else
    let index := n.log.length
    ({ n with log := n.log ++ [{ term := n.currentTerm, index, command }] }, some index)

/-- The votes, or copies of an entry, that make a majority of the cluster. -/
def majority (n : RaftNode ν γ) : ℕ := (n.peers.length + 1) / 2 + 1

/-- The nodes known to hold the log of the leader up to `N`: itself, and the peers whose
`match_index` is that far. -/
def replicas (n : RaftNode ν γ) (N : ℕ) : ℕ :=
  1 + n.peers.countP fun peer => decide (N ≤ (n.matchIndex.get? peer).getD 0)

def committable (n : RaftNode ν γ) (N : ℕ) : Bool :=
  match n.log[N]? with
  | some entry => decide (entry.term = n.currentTerm) && decide (n.majority ≤ n.replicas N)
  | none => false

/-- Check if any log entries have been replicated to a majority and commit them. -/
def updateLeaderCommit (n : RaftNode ν γ) : RaftNode ν γ × Bool × List (ℕ × LogEntry γ) :=
  if n.state ≠ .leader then (n, false, [])
  else
    match (List.range' (n.commitIndex + 1) (n.log.length - 1 - n.commitIndex)).reverse.find?
        n.committable with
    | some N => let r := applyEntries { n with commitIndex := N }; (r.1, true, r.2)
    | none => (n, false, [])

/-! ## What each handler can do -/

section Outcomes

set_option linter.unusedSectionVars false

variable (n : RaftNode ν γ)

inductive VoteOutcome (args : RequestVoteArgs ν) :
    RaftNode ν γ × Option RequestVoteReply → Prop where
  | stale (h : args.term < n.currentTerm) :
      VoteOutcome args (n, some { term := n.currentTerm, voteGranted := false })
  | denied (h : n.currentTerm ≤ args.term) (reply) (hreply : ∀ r ∈ reply, r.voteGranted = false) :
      VoteOutcome args (n.observeTerm args.term, reply)
  | granted (h : n.currentTerm ≤ args.term) (n₁) (hn₁ : n₁ = n.observeTerm args.term) (last)
      (hlast : n₁.log.getLast? = some last)
      (hup : upToDate last args.lastLogTerm args.lastLogIndex = true)
      (hvote : n₁.votedFor = none ∨ n₁.votedFor = some args.candidateId) :
      VoteOutcome args ({ n₁ with votedFor := some args.candidateId },
        some { term := n₁.currentTerm, voteGranted := true })

inductive AppendOutcome (args : AppendEntriesArgs ν γ) :
    RaftNode ν γ × AppendEntriesReply × List (ℕ × LogEntry γ) → Prop where
  | stale (h : args.term < n.currentTerm) :
      AppendOutcome args (n, { term := n.currentTerm, success := false }, [])
  | missing (h : n.currentTerm ≤ args.term) (n₁) (hn₁ : n₁ = n.acceptLeader args.term)
      (hprev : n₁.log[args.prevLogIndex]? = none) :
      AppendOutcome args (n₁, { term := n₁.currentTerm, success := false }, [])
  | mismatch (h : n.currentTerm ≤ args.term) (n₁) (hn₁ : n₁ = n.acceptLeader args.term) (prev)
      (hprev : n₁.log[args.prevLogIndex]? = some prev) (hne : prev.term ≠ args.prevLogTerm) :
      AppendOutcome args ({ n₁ with log := n₁.log.take args.prevLogIndex },
        { term := n₁.currentTerm, success := false }, [])
  | appended (h : n.currentTerm ≤ args.term) (n₁) (hn₁ : n₁ = n.acceptLeader args.term) (prev)
      (hprev : n₁.log[args.prevLogIndex]? = some prev) (heq : prev.term = args.prevLogTerm) (r)
      (hr : r = advanceCommit { n₁ with log := args.entries.foldl appendEntry n₁.log }
        args.leaderCommit) :
      AppendOutcome args
        (r.1, { term := n₁.currentTerm, success := true, matchIndex := r.1.log.length - 1 }, r.2)

theorem handleRequestVote_outcome (args : RequestVoteArgs ν) :
    n.VoteOutcome args (n.handleRequestVote args) := by
  unfold handleRequestVote
  split
  · next h => exact .stale h
  · next h =>
    have hle := not_lt.mp h
    simp only
    split
    · exact .denied hle none (by simp)
    · next last hlast =>
      split
      · next hgrant => exact .granted hle _ rfl last hlast hgrant.2 hgrant.1
      · exact .denied hle _ (by simp)

theorem handleAppendEntries_outcome (args : AppendEntriesArgs ν γ) :
    n.AppendOutcome args (n.handleAppendEntries args) := by
  unfold handleAppendEntries
  split
  · next h => exact .stale h
  · next h =>
    have hle := not_lt.mp h
    simp only
    split
    · next hprev => exact .missing hle _ rfl hprev
    · next prev hprev =>
      split
      · next hne => exact .mismatch hle _ rfl prev hprev hne
      · next heq => exact .appended hle _ rfl prev hprev (not_not.mp heq) _ rfl

theorem observeTerm_eq_or (term : ℕ) : (n.observeTerm term = n.adoptTerm term ∧ n.currentTerm < term) ∨
    (n.observeTerm term = n ∧ term ≤ n.currentTerm) := by
  unfold observeTerm
  split
  · next h => exact .inl ⟨rfl, h⟩
  · next h => exact .inr ⟨rfl, not_lt.mp h⟩

theorem acceptLeader_eq_or (term : ℕ) :
    (n.acceptLeader term = n.adoptTerm term ∧ (n.currentTerm < term ∨ n.state ≠ .follower)) ∨
      (n.acceptLeader term = n ∧ term ≤ n.currentTerm ∧ n.state = .follower) := by
  unfold acceptLeader
  split
  · next h => exact .inl ⟨rfl, h⟩
  · next h =>
    rw [not_or, not_not] at h
    exact .inr ⟨rfl, not_lt.mp h.1, h.2⟩

@[simp] theorem observeTerm_log (term : ℕ) : (n.observeTerm term).log = n.log := by
  unfold observeTerm
  split <;> rfl

theorem observeTerm_id (term : ℕ) : (n.observeTerm term).nodeId = n.nodeId ∧
    (n.observeTerm term).peers = n.peers := by
  unfold observeTerm
  split <;> exact ⟨rfl, rfl⟩

theorem acceptLeader_id (term : ℕ) : (n.acceptLeader term).nodeId = n.nodeId ∧
    (n.acceptLeader term).peers = n.peers := by
  unfold acceptLeader
  split <;> exact ⟨rfl, rfl⟩

@[simp] theorem acceptLeader_log (term : ℕ) : (n.acceptLeader term).log = n.log := by
  unfold acceptLeader
  split <;> rfl

variable {n}

theorem observeTerm_currentTerm {term : ℕ} (h : n.currentTerm ≤ term) :
    (n.observeTerm term).currentTerm = term := by
  rcases n.observeTerm_eq_or term with ⟨heq, -⟩ | ⟨heq, hle⟩ <;> rw [heq]
  · rfl
  · exact le_antisymm h hle

theorem acceptLeader_currentTerm {term : ℕ} (h : n.currentTerm ≤ term) :
    (n.acceptLeader term).currentTerm = term := by
  rcases n.acceptLeader_eq_or term with ⟨heq, -⟩ | ⟨heq, hle, -⟩ <;> rw [heq]
  · rfl
  · exact le_antisymm h hle

variable (n)

theorem acceptLeader_state (term : ℕ) : (n.acceptLeader term).state = .follower := by
  rcases n.acceptLeader_eq_or term with ⟨heq, -⟩ | ⟨heq, -, hst⟩ <;> rw [heq]
  · rfl
  · exact hst

/-- Advancing the commit index changes only what is committed and applied. -/
theorem advanceCommit_eq (leaderCommit : ℕ) : ∃ c a,
    (n.advanceCommit leaderCommit).1 = { n with commitIndex := c, lastApplied := a } := by
  unfold advanceCommit
  split
  · exact ⟨_, _, rfl⟩
  · exact ⟨n.commitIndex, n.lastApplied, rfl⟩

theorem updateLeaderCommit_eq : ∃ c a,
    n.updateLeaderCommit.1 = { n with commitIndex := c, lastApplied := a } := by
  unfold updateLeaderCommit
  split
  · exact ⟨n.commitIndex, n.lastApplied, rfl⟩
  · split
    · exact ⟨_, _, rfl⟩
    · exact ⟨n.commitIndex, n.lastApplied, rfl⟩

/-! ### What a node commits and applies -/

variable {n}

theorem mem_applyEntries {k : ℕ} {x : LogEntry γ} (h : (k, x) ∈ (applyEntries n).2) :
    0 < k ∧ k ≤ n.commitIndex ∧ n.log[k]? = some x := by
  obtain ⟨j, hj, heq⟩ := List.mem_filterMap.mp h
  obtain ⟨y, hy, hpair⟩ := Option.map_eq_some_iff.mp heq
  cases hpair
  rw [List.mem_range'_1] at hj
  exact ⟨by omega, by omega, hy⟩

theorem advanceCommit_commitIndex (n : RaftNode ν γ) (leaderCommit : ℕ) :
    (n.advanceCommit leaderCommit).1.commitIndex = n.commitIndex ∨
      (n.advanceCommit leaderCommit).1.commitIndex ≤ leaderCommit := by
  unfold advanceCommit
  split
  · exact .inr (Nat.min_le_left _ _)
  · exact .inl rfl

theorem mem_advanceCommit {leaderCommit k : ℕ} {x : LogEntry γ}
    (h : (k, x) ∈ (n.advanceCommit leaderCommit).2) :
    0 < k ∧ k ≤ leaderCommit ∧ n.log[k]? = some x := by
  unfold advanceCommit at h
  split at h
  · obtain ⟨hpos, hle, hx⟩ := mem_applyEntries h
    exact ⟨hpos, hle.trans (Nat.min_le_left _ _), hx⟩
  · simp at h

variable (n)

/-- A leader commits nothing, or up to an entry of its own term that a majority has stored. -/
theorem updateLeaderCommit_outcome : n.updateLeaderCommit = (n, false, []) ∨
    ∃ N, n.state = .leader ∧ 0 < N ∧ n.committable N = true ∧
      n.updateLeaderCommit.1.commitIndex = N ∧
      ∀ r ∈ n.updateLeaderCommit.2.2, r.1 ≤ N ∧ n.log[r.1]? = some r.2 := by
  unfold updateLeaderCommit
  split
  · exact .inl rfl
  · next hst =>
    split
    · next N hfind =>
      have hmem := List.mem_of_find?_eq_some hfind
      rw [List.mem_reverse, List.mem_range'_1] at hmem
      refine .inr ⟨N, not_not.mp hst, by omega, List.find?_some hfind, rfl, ?_⟩
      intro r hr
      exact (mem_applyEntries hr).2
    · exact .inl rfl

/-- A committable entry is of the node's own term, and a majority of peers reports to hold it. -/
theorem of_committable {N : ℕ} (h : n.committable N = true) :
    ∃ entry, n.log[N]? = some entry ∧ entry.term = n.currentTerm ∧ n.majority ≤ n.replicas N := by
  unfold committable at h
  split at h
  · next entry hentry =>
    rw [Bool.and_eq_true, decide_eq_true_eq, decide_eq_true_eq] at h
    exact ⟨entry, hentry, h.1, h.2⟩
  · cases h

@[simp] theorem observeTerm_matchIndex (term : ℕ) :
    (n.observeTerm term).matchIndex = n.matchIndex := by
  unfold observeTerm
  split <;> rfl

@[simp] theorem acceptLeader_matchIndex (term : ℕ) :
    (n.acceptLeader term).matchIndex = n.matchIndex := by
  unfold acceptLeader
  split <;> rfl

variable {n}

theorem VoteOutcome.matchIndex_eq {args : RequestVoteArgs ν}
    {r : RaftNode ν γ × Option RequestVoteReply} (h : n.VoteOutcome args r) :
    r.1.matchIndex = n.matchIndex ∧ r.1.commitIndex = n.commitIndex := by
  have hcommit : (n.observeTerm args.term).commitIndex = n.commitIndex := by
    unfold observeTerm
    split <;> rfl
  cases h with
  | stale hlt => exact ⟨rfl, rfl⟩
  | denied hle reply hno => exact ⟨n.observeTerm_matchIndex _, hcommit⟩
  | granted hle n₁ hn₁ last hlast hup hvote =>
    subst hn₁
    exact ⟨n.observeTerm_matchIndex _, hcommit⟩

theorem VoteOutcome.peers_eq {args : RequestVoteArgs ν}
    {r : RaftNode ν γ × Option RequestVoteReply} (h : n.VoteOutcome args r) :
    r.1.peers = n.peers := by
  cases h with
  | stale hlt => rfl
  | denied hle reply hno => exact (n.observeTerm_id _).2
  | granted hle n₁ hn₁ last hlast hup hvote =>
    subst hn₁
    exact (n.observeTerm_id _).2

/-- Promotion resets the match index of all peers. -/
theorem promoteToLeader_matchIndex {peer : ν} (h : peer ∈ n.peers) :
    n.promoteToLeader.matchIndex.get? peer = some 0 := by
  have hset : ∀ (ps : List ν) (d : Dict ν ℕ), peer ∈ ps ∨ d.get? peer = some 0 →
      (ps.foldl (fun d p => d.set p 0) d).get? peer = some 0 := by
    intro ps
    induction ps with
    | nil => exact fun d hd => hd.resolve_left (by simp)
    | cons p ps ih =>
      intro d hd
      apply ih
      rcases hd with hmem | hd
      · rcases List.mem_cons.mp hmem with rfl | hmem
        · exact .inr (Dict.get?_set_self d peer 0)
        · exact .inl hmem
      · right
        rw [Dict.get?_set]
        split
        · rfl
        · exact hd
  exact hset n.peers n.matchIndex (.inl h)

end Outcomes

end RaftNode

end PySQL.Raft
