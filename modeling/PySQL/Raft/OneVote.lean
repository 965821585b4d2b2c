import PySQL.Lib.Machine
import PySQL.Raft.Node

/-!
# One vote per term

Calls on a single node with arbitrary arguments.  A node supports a candidate by granting it its
vote, and itself by starting an election.
-/

namespace PySQL.Raft

open Lib RaftNode

variable {ν γ : Type*} [DecidableEq ν]

inductive Call (ν γ : Type*) where
  | requestVote (args : RequestVoteArgs ν)
  | appendEntries (args : AppendEntriesArgs ν γ)
  | startElection
  | promoteToLeader
  | propose (command : Option γ)
  deriving DecidableEq, Repr

/-- The node after a call, and the candidate that it supports by it. -/
def RaftNode.call (n : RaftNode ν γ) : Call ν γ → RaftNode ν γ × Option ν
  | .requestVote args =>
    let r := n.handleRequestVote args
    (r.1, if r.2.any RequestVoteReply.voteGranted then some args.candidateId else none)
  | .appendEntries args => ((n.handleAppendEntries args).1, none)
  | .startElection => (n.startElection.1, some n.nodeId)
  | .promoteToLeader => (n.promoteToLeader, none)
  | .propose command => ((n.propose command).1, none)

/-- Any call at any time, on a node in any state. -/
def nodeMachine (n : RaftNode ν γ) : Machine (RaftNode ν γ) (Call ν γ) (Option ν) where
  init := n
  enabled _ _ := True
  step := RaftNode.call

abbrev NodeEvent (ν γ : Type*) := Event (RaftNode ν γ) (Call ν γ) (Option ν)

def NodeEvent.post (e : NodeEvent ν γ) : RaftNode ν γ := (e.pre.call e.input).1

/-- In a step of the run the node supports the candidate, in the term it then is in. -/
def Supports (tr : List (NodeEvent ν γ)) (t : ℕ) (c : ν) : Prop :=
  ∃ e ∈ tr, e.post.currentTerm = t ∧ e.reply = some c

/-- The term never decreases, and no two candidates are supported in one term. -/
def OneVote (tr : List (NodeEvent ν γ)) : Prop :=
  (∀ e ∈ tr, e.pre.currentTerm ≤ e.post.currentTerm) ∧
    ∀ t c c', Supports tr t c → Supports tr t c' → c = c'

/-- Not an AppendEntries of its own term to a node that has voted in it and is no follower. -/
def KeepsVote (e : NodeEvent ν γ) : Prop :=
  ∀ args, e.input = .appendEntries args → args.term = e.pre.currentTerm →
    e.pre.state ≠ .follower → e.pre.votedFor = none

/-! ## One call -/

/-- What the node has supported in its current term is its recorded vote. -/
structure Recorded (tr : List (NodeEvent ν γ)) (n : RaftNode ν γ) : Prop where
  term : ∀ t c, Supports tr t c → t ≤ n.currentTerm
  vote : ∀ c, Supports tr n.currentTerm c → n.votedFor = some c

/-- How a call moves the term and the vote. -/
inductive VoteStep (n n' : RaftNode ν γ) : Option ν → Prop where
  | kept (hterm : n'.currentTerm = n.currentTerm) (hvote : n'.votedFor = n.votedFor) :
      VoteStep n n' none
  | advanced (hterm : n.currentTerm < n'.currentTerm) : VoteStep n n' none
  | voted (c : ν) (hvote : n'.votedFor = some c)
      (hterm : n.currentTerm < n'.currentTerm ∨ n'.currentTerm = n.currentTerm ∧
        (n.votedFor = none ∨ n.votedFor = some c)) :
      VoteStep n n' (some c)

variable (n : RaftNode ν γ)

theorem voteStep_observeTerm (term : ℕ) : VoteStep n (n.observeTerm term) none := by
  rcases n.observeTerm_eq_or term with ⟨heq, hlt⟩ | ⟨heq, -⟩ <;> rw [heq]
  · exact .advanced hlt
  · exact .kept rfl rfl

theorem voteStep_requestVote (args : RequestVoteArgs ν) :
    VoteStep n (n.call (.requestVote args)).1 (n.call (.requestVote args)).2 := by
  show VoteStep n (n.handleRequestVote args).1
    (if (n.handleRequestVote args).2.any _ then some args.candidateId else none)
  have houtcome := n.handleRequestVote_outcome args
  generalize n.handleRequestVote args = r at houtcome ⊢
  cases houtcome with
  | stale h => exact .kept rfl rfl
  | denied h reply hreply =>
    have hnone : reply.any RequestVoteReply.voteGranted = false := by
      cases reply with
      | none => rfl
      | some r => exact hreply r rfl
    rw [hnone]
    exact voteStep_observeTerm n args.term
  | granted h n₁ hn₁ last hlast hup hvote =>
    apply VoteStep.voted args.candidateId rfl
    show n.currentTerm < n₁.currentTerm ∨ n₁.currentTerm = n.currentTerm ∧ _
    rcases n.observeTerm_eq_or args.term with ⟨heq, hlt⟩ | ⟨heq, -⟩
    · rw [hn₁, heq]
      exact .inl hlt
    · rw [hn₁, heq] at hvote ⊢
      exact .inr ⟨rfl, hvote⟩

theorem voteStep_acceptLeader (term : ℕ) (hle : n.currentTerm ≤ term)
    (hkeep : term = n.currentTerm → n.state ≠ .follower → n.votedFor = none) :
    VoteStep n (n.acceptLeader term) none := by
  rcases n.acceptLeader_eq_or term with ⟨heq, hwhy⟩ | ⟨heq, -, -⟩ <;> rw [heq]
  · rcases hle.lt_or_eq with hlt | hterm
    · exact .advanced hlt
    · -- the node steps down in its own term and forgets its vote
      have hstate := hwhy.resolve_left hterm.not_lt
      exact .kept hterm.symm (hkeep hterm.symm hstate).symm
  · exact .kept rfl rfl

theorem VoteStep.congr {n n' n'' : RaftNode ν γ} {o : Option ν} (h : VoteStep n n' o)
    (hterm : n''.currentTerm = n'.currentTerm) (hvote : n''.votedFor = n'.votedFor) :
    VoteStep n n'' o := by
  cases h with
  | kept ht hv => exact .kept (hterm.trans ht) (hvote.trans hv)
  | advanced ht => exact .advanced (hterm ▸ ht)
  | voted c hv ht => exact .voted c (hvote.trans hv) (hterm ▸ ht)

theorem voteStep_appendEntries (args : AppendEntriesArgs ν γ)
    (hkeep : args.term = n.currentTerm → n.state ≠ .follower → n.votedFor = none) :
    VoteStep n (n.handleAppendEntries args).1 none := by
  have houtcome := n.handleAppendEntries_outcome args
  generalize n.handleAppendEntries args = r at houtcome ⊢
  cases houtcome with
  | stale h => exact .kept rfl rfl
  | missing h n₁ hn₁ hprev =>
    rw [hn₁]
    exact voteStep_acceptLeader n args.term h hkeep
  | mismatch h n₁ hn₁ prev hprev hne =>
    rw [hn₁]
    exact (voteStep_acceptLeader n args.term h hkeep).congr rfl rfl
  | appended h n₁ hn₁ prev hprev heq r hr =>
    obtain ⟨c, a, hadvance⟩ := advanceCommit_eq
      { n₁ with log := args.entries.foldl appendEntry n₁.log } args.leaderCommit
    rw [hr, hadvance, hn₁]
    exact (voteStep_acceptLeader n args.term h hkeep).congr rfl rfl

variable {n}

theorem KeepsVote.voteStep {e : NodeEvent ν γ} (h : KeepsVote e) :
    VoteStep e.pre e.post (e.pre.call e.input).2 := by
  obtain ⟨n, input, reply⟩ := e
  cases input with
  | requestVote args => exact voteStep_requestVote n args
  | appendEntries args => exact voteStep_appendEntries n args (h args rfl)
  | startElection => exact .voted n.nodeId rfl (.inl n.currentTerm.lt_succ_self)
  | promoteToLeader => exact .kept rfl rfl
  | propose command =>
    show VoteStep n (n.propose command).1 none
    unfold propose
    split <;> exact .kept rfl rfl

theorem VoteStep.term_le {n n' : RaftNode ν γ} {o : Option ν} (h : VoteStep n n' o) :
    n.currentTerm ≤ n'.currentTerm := by
  cases h with
  | kept hterm hvote => exact hterm.ge
  | advanced hterm => exact hterm.le
  | voted c hvote hterm => exact hterm.elim le_of_lt fun h => h.1.ge

/-! ## Runs -/

theorem supports_snoc {tr : List (NodeEvent ν γ)} {e : NodeEvent ν γ} {t : ℕ} {c : ν} :
    Supports (tr ++ [e]) t c ↔ Supports tr t c ∨ e.post.currentTerm = t ∧ e.reply = some c := by
  simp only [Supports, List.mem_append, List.mem_singleton, or_and_right, exists_or,
    exists_eq_left]

theorem Recorded.step {tr : List (NodeEvent ν γ)} {e : NodeEvent ν γ} (h : Recorded tr e.pre)
    (hstep : VoteStep e.pre e.post e.reply) : Recorded (tr ++ [e]) e.post := by
  constructor
  case term =>
    intro t c hsupport
    rcases supports_snoc.mp hsupport with hold | ⟨rfl, -⟩
    · exact (h.term t c hold).trans hstep.term_le
    · exact le_refl _
  case vote =>
    intro c hsupport
    rcases supports_snoc.mp hsupport with hold | ⟨-, hreply⟩
    · -- an earlier support in the term the node is in now: the term has not moved
      have hle := h.term _ c hold
      generalize e.reply = o at hstep
      cases hstep with
      | kept hterm hvote => exact hvote.trans (h.vote c (hterm ▸ hold))
      | advanced hterm => omega
      | voted c' hvote hterm =>
        obtain ⟨hterm, hfree⟩ := hterm.resolve_left (by omega)
        have hprev := h.vote c (hterm ▸ hold)
        rw [hprev] at hfree
        rw [hvote, hfree.resolve_left (Option.some_ne_none c)]
    · rw [hreply] at hstep
      cases hstep with
      | voted _ hvote _ => exact hvote

theorem OneVote.step {tr : List (NodeEvent ν γ)} {e : NodeEvent ν γ} (h : OneVote tr)
    (hrecorded : Recorded (tr ++ [e]) e.post) (hle : e.pre.currentTerm ≤ e.post.currentTerm) :
    OneVote (tr ++ [e]) := by
  constructor
  · intro x hx
    rcases List.mem_append.mp hx with hx | hx
    · exact h.1 x hx
    · rw [List.mem_singleton.mp hx]
      exact hle
  · intro t c c' hc hc'
    by_cases ht : t = e.post.currentTerm
    · subst ht
      exact Option.some.inj ((hrecorded.vote c hc).symm.trans (hrecorded.vote c' hc'))
    · have hold : ∀ {c}, Supports (tr ++ [e]) t c → Supports tr t c := fun hs =>
        (supports_snoc.mp hs).resolve_right fun hnew => ht hnew.1.symm
      exact h.2 t c c' (hold hc) (hold hc')

/-- A node that gets no AppendEntries of its own term while it is a candidate or a leader with a
recorded vote supports at most one candidate in each term. -/
theorem oneVote_of_keepsVote {tr : List (NodeEvent ν γ)} {s : RaftNode ν γ}
    (h : (nodeMachine n).Run tr s) (hkeeps : ∀ e ∈ tr, KeepsVote e) : OneVote tr := by
  have hinv : OneVote tr ∧ Recorded tr s := by
    apply h.invariant_of hkeeps
    · have hnone : ∀ t c, ¬ Supports ([] : List (NodeEvent ν γ)) t c := by simp [Supports]
      exact ⟨⟨by simp, fun t c _ hc => absurd hc (hnone t c)⟩,
        ⟨fun t c hc => absurd hc (hnone t c), fun c hc => absurd hc (hnone _ c)⟩⟩
    · intro tr s call _ hI _ hkeep
      have hstep := hkeep.voteStep
      have hrecorded := Recorded.step (e := (nodeMachine n).event s call) hI.2 hstep
      exact ⟨hI.1.step hrecorded hstep.term_le, hrecorded⟩
  exact hinv.1

/-- A node that stands for election, follows another leader in the next term and votes there. -/
def steadyCalls : List (Call ℕ ℕ) :=
  [.startElection, .appendEntries ⟨2, 1, 0, 0, [], 0⟩, .requestVote ⟨2, 2, 0, 0⟩]

theorem oneVote_of_keepsVote_steadyCalls :
    OneVote ((nodeMachine { nodeId := 0, peers := [1, 2] }).trace
      { nodeId := 0, peers := [1, 2] } steadyCalls) := by
  apply oneVote_of_keepsVote (s := (nodeMachine { nodeId := 0, peers := [1, 2] }).exec
    { nodeId := 0, peers := [1, 2] } steadyCalls)
  · exact Machine.run_of_legal ⟨trivial, trivial, trivial, trivial⟩
  · intro e he args hinput hterm hstate
    simp only [steadyCalls, Machine.trace_cons, Machine.trace_nil, List.mem_cons,
      List.not_mem_nil, or_false] at he
    rcases he with rfl | rfl | rfl
    · cases hinput
    · cases hinput
      exact absurd hterm (by decide)
    · cases hinput

/-- A candidate that hears of the winner of its own term forgets its vote and votes once more. -/
def doubleVoteCalls : List (Call ℕ ℕ) :=
  [.startElection, .appendEntries ⟨1, 1, 0, 0, [], 0⟩, .requestVote ⟨1, 2, 0, 0⟩]

theorem doubleVote_not_oneVote :
    ¬ OneVote ((nodeMachine { nodeId := 0, peers := [1, 2] }).trace
      { nodeId := 0, peers := [1, 2] } doubleVoteCalls) := by
  intro h
  have hself : Supports ((nodeMachine { nodeId := 0, peers := [1, 2] }).trace
      { nodeId := 0, peers := [1, 2] } doubleVoteCalls) 1 0 := ⟨_, List.mem_cons_self, rfl, rfl⟩
  have hother : Supports ((nodeMachine { nodeId := 0, peers := [1, 2] }).trace
      { nodeId := 0, peers := [1, 2] } doubleVoteCalls) 1 2 :=
    ⟨_, List.mem_cons_of_mem _ (List.mem_cons_of_mem _ List.mem_cons_self), rfl, rfl⟩
  exact absurd (h.2 1 0 2 hself hother) (by decide)

end PySQL.Raft
