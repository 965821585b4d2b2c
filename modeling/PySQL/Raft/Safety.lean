import PySQL.Raft.Completeness

/-!
# State machine safety

A follower reports all of its log as matching, and commits up to the end of it, although a message
only vouches for the log up to its own last entry.  As long as the rest of the log is the leader's
too, no two nodes apply different entries at one index.
-/

namespace PySQL.Raft

open Lib RaftNode

set_option linter.unusedSectionVars false

variable {ν γ : Type*} [DecidableEq ν] [DecidableEq γ]

/-- Node `i` has applied entry `x` as the one at index `k`. -/
def Applied (tr : History ν γ) (i : ν) (k : ℕ) (x : LogEntry γ) : Prop :=
  ∃ e ∈ tr, e.input.actor = i ∧ (k, x) ∈ e.reply

/-- No two nodes ever apply different entries at one index. -/
def StateMachineSafety (tr : History ν γ) : Prop :=
  ∀ i j k x y, Applied tr i k x → Applied tr j k y → x = y

/-- The condition on one step, given the leaders' logs before it. -/
def MeetsTail (own : ℕ → List (LogEntry γ)) (e : Step ν γ) : Prop :=
  match e.input with
  | .deliverAppend dst args => TailKnown (own args.term) (e.pre.node dst) args
  | _ => True

/-- All delivered AppendEntries messages of a run meet `TailKnown`. -/
def TailsKnown (tr : History ν γ) : Prop :=
  ∀ n, ∀ h : n < tr.length, MeetsTail (leaderLogs (tr.take n)) tr[n]

instance (own : ℕ → List (LogEntry γ)) (e : Step ν γ) : Decidable (MeetsTail own e) := by
  unfold MeetsTail
  split <;> infer_instance

/-- Everything up to index `c` is committed in terms up to `t`. -/
def CommitsTo (C : Cluster ν) (tr : History ν γ) (own : ℕ → List (LogEntry γ)) (s : System ν γ)
    (t c : ℕ) : Prop :=
  c = 0 ∨ ∃ u p, Committed C tr own s u p ∧ c < p.length ∧ u ≤ t

/-- What the commit indices, the match indices and the applied entries of a run stand for. -/
structure Commits (C : Cluster ν) (tr : History ν γ) (own : ℕ → List (LogEntry γ))
    (s : System ν γ) : Prop where
  commit : ∀ i, CommitsTo C tr own s (s.node i).currentTerm (s.node i).commitIndex
  sent : ∀ dst args, .appendEntries dst args ∈ s.messages →
    CommitsTo C tr own s args.term args.leaderCommit
  stored : ∀ i, (s.node i).state = .leader → ∀ peer ∈ (s.node i).peers,
    ((s.node i).matchIndex.get? peer).getD 0 = 0 ∨ ∃ l, .appendReply peer l
      { term := (s.node i).currentTerm, success := true,
        matchIndex := ((s.node i).matchIndex.get? peer).getD 0 } ∈ s.messages
  applied : ∀ e ∈ tr, ∀ r ∈ e.reply, ∃ t p, Committed C tr own s t p ∧ p[r.1]? = some r.2

theorem commits_init (C : Cluster ν) :
    Commits C ([] : History ν γ) (leaderLogs ([] : History ν γ)) (System.init C) where
  commit i := .inl rfl
  sent dst args hm := by simp [System.init] at hm
  stored i hst := by simp [System.init] at hst
  applied e he := by simp at he

section Step

variable {C : Cluster ν} {rule : AppendRule ν γ} {tr tr' : History ν γ} {s s' : System ν γ}
variable {own own' : ℕ → List (LogEntry γ)} {i : ν} {ms : List (Message ν γ)}

theorem CommitsTo.mono {t t' c c' : ℕ} (h : CommitsTo C tr own s t c) (ht : t ≤ t')
    (hc : c' ≤ c) : CommitsTo C tr own s t' c' := by
  rcases h with rfl | ⟨u, p, hp, hlt, hu⟩
  · exact .inl (Nat.le_zero.mp hc)
  · exact .inr ⟨u, p, hp, by omega, hu.trans ht⟩

/-- What is committed stays committed. -/
theorem Change.committed {e : Step ν γ} (hc : Change C tr (tr ++ [e]) own own' s s' i ms) {t : ℕ}
    {p : List (LogEntry γ)} (hp : Committed C tr own s t p) :
    Committed C (tr ++ [e]) own' s' t p where
  piece := hp.piece.trans (hc.grows.ext t)
  entry := hp.entry
  quorum := by
    obtain ⟨q, hq, hall⟩ := hp.quorum
    refine ⟨q, hq, fun v hv => ?_⟩
    obtain ⟨hpre, hwon | ⟨l, m, hlen, hm⟩⟩ := hall v hv
    · exact ⟨hpre.trans (hc.grows.ext t), .inl (won_snoc.mpr (.inl hwon))⟩
    · rw [Holds, hc.sent]
      exact ⟨hpre.trans (hc.grows.ext t), .inr ⟨l, m, hlen, List.mem_append_left _ hm⟩⟩

theorem Change.commitsTo {e : Step ν γ} (hc : Change C tr (tr ++ [e]) own own' s s' i ms) {t c : ℕ}
    (h : CommitsTo C tr own s t c) : CommitsTo C (tr ++ [e]) own' s' t c :=
  h.imp_right fun ⟨u, p, hp, hlt, hu⟩ => ⟨u, p, hc.committed hp, hlt, hu⟩

/-- An entry of the leader's log that is committed by that leader's term. -/
theorem CommitsTo.entry (h : Carried C tr own s) {t c : ℕ} (hc : CommitsTo C tr own s t c) {k : ℕ}
    {x : LogEntry γ} (hpos : 0 < k) (hk : k ≤ c) (hx : (own t)[k]? = some x) :
    ∃ u p, Committed C tr own s u p ∧ p[k]? = some x := by
  rcases hc with rfl | ⟨u, p, hp, hlt, hu⟩
  · omega
  · have hpre := h.leader_complete hp hu (fun hnil => by simp [hnil] at hx)
    obtain ⟨y, hy⟩ : ∃ y, p[k]? = some y := ⟨_, List.getElem?_eq_getElem (by omega)⟩
    rw [getElem?_of_isPrefix hpre hy] at hx
    exact ⟨u, p, hp, hx ▸ hy⟩

/-- A step of node `i`, as far as commits are concerned. -/
theorem Commits.update (h : Commits C tr own s) {e : Step ν γ}
    (hc : Change C tr (tr ++ [e]) own own' s s' i ms)
    (hcommit : CommitsTo C tr own s (s'.node i).currentTerm (s'.node i).commitIndex)
    (hreply : ∀ r ∈ e.reply, ∃ t p, Committed C tr own s t p ∧ p[r.1]? = some r.2)
    (hsent : ∀ dst args, .appendEntries dst args ∈ s'.messages →
      .appendEntries dst args ∈ s.messages ∨ CommitsTo C tr own s args.term args.leaderCommit)
    (hstored : (s'.node i).state = .leader → ∀ peer ∈ (s'.node i).peers,
      ((s'.node i).matchIndex.get? peer).getD 0 = 0 ∨ ∃ l, .appendReply peer l
        { term := (s'.node i).currentTerm, success := true,
          matchIndex := ((s'.node i).matchIndex.get? peer).getD 0 } ∈ s.messages) :
    Commits C (tr ++ [e]) own' s' where
  commit j := by
    by_cases hj : j = i
    · rw [hj]
      exact hc.commitsTo hcommit
    · rw [hc.other j hj]
      exact hc.commitsTo (h.commit j)
  sent dst args hm := by
    exact hc.commitsTo ((hsent dst args hm).elim (h.sent dst args) id)
  stored j hst peer hpeer := by
    rw [hc.sent]
    by_cases hj : j = i
    · rw [hj] at hst hpeer ⊢
      exact (hstored hst peer hpeer).imp_right fun ⟨l, hl⟩ => ⟨l, List.mem_append_left _ hl⟩
    · rw [hc.other j hj] at hst hpeer ⊢
      exact (h.stored j hst peer hpeer).imp_right fun ⟨l, hl⟩ => ⟨l, List.mem_append_left _ hl⟩
  applied e' he' r hr := by
    have hcase : ∃ t p, Committed C tr own s t p ∧ p[r.1]? = some r.2 := by
      rcases List.mem_append.mp he' with hmem | hmem
      · exact h.applied e' hmem r hr
      · rw [List.mem_singleton] at hmem
        exact hreply r (hmem ▸ hr)
    obtain ⟨t, p, hp, hx⟩ := hcase
    exact ⟨t, p, hc.committed hp, hx⟩

/-- A step of node `i` that commits nothing, applies nothing and sends no entries. -/
theorem Commits.quiet (h : Commits C tr own s) {e : Step ν γ}
    (hc : Change C tr (tr ++ [e]) own own' s s' i ms)
    (hcommit : (s'.node i).commitIndex = (s.node i).commitIndex) (hreply : e.reply = [])
    (hsent : ∀ dst args, .appendEntries dst args ∈ s'.messages → .appendEntries dst args ∈ s.messages)
    (hkeep : (s'.node i).state = .leader → (s.node i).state = .leader ∧
      (s'.node i).currentTerm = (s.node i).currentTerm ∧ (s'.node i).peers = (s.node i).peers ∧
      (s'.node i).matchIndex = (s.node i).matchIndex) : Commits C (tr ++ [e]) own' s' := by
  apply h.update hc
  · rw [hcommit]
    exact (h.commit i).mono hc.term le_rfl
  · simp [hreply]
  · exact fun dst args hm => .inl (hsent dst args hm)
  · intro hst
    obtain ⟨hold, hterm, hpeers, hmatch⟩ := hkeep hst
    rw [hterm, hpeers, hmatch]
    exact h.stored i hold

/-- What the leader of a term counts as stored by a majority is committed. -/
theorem Commits.committable (h : Commits C tr own s) (hel : Elected C tr s)
    (hm : Matched tr own s) (hi : i ∈ C.members) (hst : (s.node i).state = .leader) {N : ℕ}
    (hpos : 0 < N) (hN : (s.node i).committable N = true) :
    Committed C tr own s (s.node i).currentTerm ((s.node i).log.take (N + 1)) := by
  obtain ⟨entry, hentry, hterm, hmaj⟩ := of_committable _ hN
  have hown := hm.leader i hst
  have hpre : (s.node i).log.take (N + 1) <+: own (s.node i).currentTerm := by
    rw [hown]
    exact ⟨_, List.take_append_drop _ _⟩
  refine ⟨hpre, ⟨entry, ?_, hterm⟩, ?_⟩
  · rw [List.mem_iff_getElem?]
    exact ⟨N, (List.getElem?_take_of_lt (Nat.lt_succ_self N)).trans hentry⟩
  · rw [RaftNode.replicas, List.countP_eq_length_filter] at hmaj
    refine ⟨_, hel.quorum_peers hi _ hmaj, fun v hv => ⟨hpre, ?_⟩⟩
    rcases List.mem_cons.mp hv with rfl | hv
    · exact .inl (hel.leads _ hst)
    · obtain ⟨hpeer, hle⟩ := List.mem_filter.mp hv
      have hle' := of_decide_eq_true hle
      obtain ⟨l, hl⟩ := (h.stored i hst v hpeer).resolve_left (by omega)
      have hlen := List.length_take_le (N + 1) (s.node i).log
      exact .inr ⟨l, _, by omega, hl⟩

theorem Commits.deliverAppend (h : Commits C tr own s) (hcar : Carried C tr own s)
    (hm : Matched tr own s) {dst : ν} {args : AppendEntriesArgs ν γ}
    (hmem : .appendEntries dst args ∈ s.messages)
    (htail : TailKnown (own args.term) (s.node dst) args) {e : Step ν γ}
    (hreply : e.reply = (s.step (.deliverAppend dst args)).2)
    (hc : Change C tr (tr ++ [e]) own own' s (s.step (.deliverAppend dst args)).1 dst ms) :
    Commits C (tr ++ [e]) own' (s.step (.deliverAppend dst args)).1 := by
  have hself : (s.step (.deliverAppend dst args)).1.node dst =
      ((s.node dst).handleAppendEntries args).1 := Function.update_self _ _ _
  have hsent : ∀ dst' args', .appendEntries dst' args' ∈ (s.step (.deliverAppend dst args)).1.messages →
      .appendEntries dst' args' ∈ s.messages := fun dst' args' hin => by
    simpa [System.step, System.send, System.setNode] using hin
  have hout := (s.node dst).handleAppendEntries_outcome args
  have hvotes := appendOutcome_votes hout
  replace hreply : e.reply = ((s.node dst).handleAppendEntries args).2.2 := hreply
  generalize (s.node dst).handleAppendEntries args = r at hout hself hreply hvotes
  have hquiet : r.1.commitIndex = (s.node dst).commitIndex →
      r.1.matchIndex = (s.node dst).matchIndex → r.2.2 = [] →
        Commits C (tr ++ [e]) own' (s.step (.deliverAppend dst args)).1 := by
    intro hcommit hmatch hnil
    refine h.quiet hc (hself ▸ hcommit) (hreply.trans hnil) hsent fun hst => ?_
    rw [hself] at hst ⊢
    obtain ⟨-, hpeers, ⟨hsame, -⟩ | ⟨-, -, hfollower, -⟩⟩ := hvotes
    · rw [hsame] at hst ⊢
      exact ⟨hst, rfl, rfl, rfl⟩
    · rw [hfollower] at hst
      cases hst
  have hcommit₁ : ((s.node dst).acceptLeader args.term).commitIndex = (s.node dst).commitIndex := by
    unfold acceptLeader
    split <;> rfl
  cases hout with
  | stale hlt => exact hquiet rfl rfl rfl
  | missing hle n₁ hn₁ hprev =>
    subst hn₁
    exact hquiet hcommit₁ (acceptLeader_matchIndex _ _) rfl
  | mismatch hle n₁ hn₁ prev hprev hne =>
    subst hn₁
    exact hquiet hcommit₁ (acceptLeader_matchIndex _ _) rfl
  | appended hle n₁ hn₁ prev hprev heq r hr =>
    subst hn₁
    have hindex := hr ▸ advanceCommit_commitIndex _ args.leaderCommit
    rw [acceptLeader_log] at hprev
    have hpre := hm.accepted hmem hle hprev heq htail
    have hlc := h.sent dst args hmem
    obtain ⟨-, -, ⟨hsame, hlt⟩ | ⟨-, hterm, hfollower, -⟩⟩ := hvotes
    · omega
    · apply h.update hc
      · rw [hself, hterm]
        rcases hindex with hold | hnew
        · rw [hold]
          exact (h.commit dst).mono hle hcommit₁.le
        · exact hlc.mono le_rfl hnew
      · intro x hin
        rw [hreply, hr] at hin
        obtain ⟨hpos, hk, hx⟩ := mem_advanceCommit hin
        simp only [acceptLeader_log] at hx
        exact hlc.entry hcar hpos hk (getElem?_of_isPrefix hpre hx)
      · exact fun dst' args' hin => .inl (hsent dst' args' hin)
      · intro hst
        rw [hself, hfollower] at hst
        cases hst

theorem Commits.updateCommit (h : Commits C tr own s) (hel : Elected C tr s)
    (hm : Matched tr own s) (hi : i ∈ C.members) {e : Step ν γ}
    (hreply : e.reply = (s.step (.updateCommit i)).2)
    (hc : Change C tr (tr ++ [e]) own own' s (s.step (.updateCommit i)).1 i ms) :
    Commits C (tr ++ [e]) own' (s.step (.updateCommit i)).1 := by
  have hself : (s.step (.updateCommit i)).1.node i = (s.node i).updateLeaderCommit.1 :=
    Function.update_self _ _ _
  obtain ⟨c, a, heq⟩ := updateLeaderCommit_eq (s.node i)
  replace hreply : e.reply = (s.node i).updateLeaderCommit.2.2 := hreply
  rcases (s.node i).updateLeaderCommit_outcome with hnone | ⟨N, hst, hpos, hN, hcommit, happlied⟩
  · refine h.quiet hc ?_ ?_ (fun _ _ hin => hin) fun hst => ?_
    · rw [hself, hnone]
    · rw [hreply, hnone]
    · rw [hself, hnone] at hst ⊢
      exact ⟨hst, rfl, rfl, rfl⟩
  · have hcommitted := h.committable hel hm hi hst hpos hN
    obtain ⟨entry, hentry, -⟩ := of_committable _ hN
    have hlt := (List.getElem?_eq_some_iff.mp hentry).1
    apply h.update hc
    · rw [hself, hcommit, heq]
      refine .inr ⟨_, _, hcommitted, ?_, le_rfl⟩
      rw [List.length_take]
      omega
    · intro r hr
      rw [hreply] at hr
      obtain ⟨hle, hx⟩ := happlied r hr
      exact ⟨_, _, hcommitted, (List.getElem?_take_of_lt (by omega)).trans hx⟩
    · exact fun _ _ hin => .inl hin
    · intro _
      rw [hself, heq]
      exact h.stored i hst

theorem Commits.step (h : Commits C tr own s) (hcar : Carried C tr own s) (hel : Elected C tr s)
    (hm : Matched tr own s) {a : Action ν γ} (hen : s.enabled C rule a)
    (hrule : ∀ n args, rule n args → fromLogAndCommit n args) {e : Step ν γ}
    (hreply : e.reply = (s.step a).2)
    (htail : ∀ dst args, a = .deliverAppend dst args →
      TailKnown (own args.term) (s.node dst) args)
    (hc : Change C tr (tr ++ [e]) own own' s (s.step a).1 a.actor ms) :
    Commits C (tr ++ [e]) own' (s.step a).1 := by
  have hself : ∀ {n ms}, (s.step a).1 = (s.setNode a.actor n).send ms →
      (s.step a).1.node a.actor = n := by
    intro n ms hstep
    rw [hstep]
    exact Function.update_self _ _ _
  cases a with
  | startElection i =>
    refine h.quiet hc ?_ hreply ?_ ?_
    · rw [hself rfl]
      rfl
    · intro dst args hin
      simpa [System.step, System.send, System.setNode] using hin
    · rw [hself rfl]
      intro hst
      cases hst
  | promote i =>
    have hn : (s.step (.promote i)).1.node i = (s.node i).promoteToLeader :=
      Function.update_self _ _ _
    apply h.update hc
    · rw [Action.actor, hn]
      exact h.commit i
    · simp [hreply, System.step]
    · exact fun _ _ hin => .inl hin
    · rw [Action.actor, hn]
      intro _ peer hpeer
      have hzero : (s.node i).promoteToLeader.matchIndex.get? peer = some 0 :=
        promoteToLeader_matchIndex hpeer
      rw [hzero]
      exact .inl rfl
  | propose i command =>
    have hn : (s.step (.propose i command)).1.node i = ((s.node i).propose command).1 :=
      Function.update_self _ _ _
    have hprop : ∃ log, ((s.node i).propose command).1 = { s.node i with log := log } := by
      unfold RaftNode.propose
      split <;> exact ⟨_, rfl⟩
    obtain ⟨log, hlog⟩ := hprop
    refine h.quiet hc ?_ hreply (fun _ _ hin => hin) ?_
    · rw [Action.actor, hn, hlog]
    · rw [Action.actor, hn, hlog]
      exact fun hst => ⟨hst, rfl, rfl, rfl⟩
  | sendAppend i dst args =>
    obtain ⟨-, -, hst, hterm, -, hargs⟩ := hen
    apply h.update hc
    · exact h.commit i
    · simp [hreply, System.step]
    · intro dst' args' hin
      refine (List.mem_append.mp hin).imp_right fun hin => ?_
      obtain ⟨rfl, rfl⟩ : dst' = dst ∧ args' = args := by simpa using hin
      rw [(hrule _ _ hargs).2, hterm]
      exact h.commit i
    · exact h.stored i
  | deliverVoteRequest dst args =>
    have hout := (s.node dst).handleRequestVote_outcome args
    refine h.quiet hc ?_ hreply ?_ ?_
    · rw [hself rfl]
      exact hout.matchIndex_eq.2
    · intro dst' args' hin
      simpa [System.step, System.send, System.setNode] using hin
    · rw [hself rfl]
      intro hst
      obtain ⟨hold, hterm⟩ := (voteOutcome_log hout).2 hst
      exact ⟨hold, hterm, hout.peers_eq, hout.matchIndex_eq.1⟩
  | deliverAppend dst args => exact h.deliverAppend hcar hm hen (htail dst args rfl) hreply hc
  | storeMatch i src reply =>
    obtain ⟨hmem, hsuccess, hst, hterm⟩ := hen
    have hn : (s.step (.storeMatch i src reply)).1.node i =
        { s.node i with matchIndex := (s.node i).matchIndex.set src reply.matchIndex } :=
      Function.update_self _ _ _
    apply h.update hc
    · rw [Action.actor, hn]
      exact h.commit i
    · simp [hreply, System.step]
    · exact fun _ _ hin => .inl hin
    · rw [Action.actor, hn]
      intro _ peer hpeer
      simp only
      by_cases hsrc : src = peer
      · subst hsrc
        rw [Dict.get?_set_self, Option.getD_some, ← hterm, ← hsuccess]
        exact .inr ⟨i, hmem⟩
      · rw [Dict.get?_set_ne _ _ hsrc]
        exact h.stored i hst peer hpeer
  | updateCommit i => exact h.updateCommit hel hm hen hreply hc

/-- Applied entries are committed, and what is committed in two terms agrees. -/
theorem Commits.safe (h : Commits C tr own s) (hcar : Carried C tr own s) :
    StateMachineSafety tr := by
  intro i j k x y hx hy
  obtain ⟨e, he, -, hmem⟩ := hx
  obtain ⟨e', he', -, hmem'⟩ := hy
  obtain ⟨t, p, hp, hpx⟩ := h.applied e he _ hmem
  obtain ⟨u, q, hq, hqy⟩ := h.applied e' he' _ hmem'
  have hagree : ∀ {t u : ℕ} {p q : List (LogEntry γ)} {x y : LogEntry γ},
      Committed C tr own s t p → Committed C tr own s u q → p[k]? = some x → q[k]? = some y →
        t ≤ u → x = y := by
    intro t u p q x y hp hq hx hy htu
    have hlater := getElem?_of_isPrefix hq.piece hy
    have hpre := hcar.leader_complete hp htu (fun hnil => by simp [hnil] at hlater)
    have hboth := getElem?_of_isPrefix hpre hx
    rw [hlater] at hboth
    exact (Option.some.inj hboth).symm
  rcases Nat.le_total t u with htu | hut
  · exact hagree hp hq hpx hqy htu
  · exact (hagree hq hp hqy hpx hut).symm

theorem tailsKnown_snoc {e : Step ν γ} (h : TailsKnown (tr ++ [e])) :
    TailsKnown tr ∧ MeetsTail (leaderLogs tr) e := by
  constructor
  · intro n hn
    have hnext := h n (by rw [List.length_append]; omega)
    rwa [List.getElem_append_left hn, List.take_append_of_le_length hn.le] at hnext
  · have hlast := h tr.length (by simp)
    simpa using hlast

/-- What a run whose messages all meet `TailKnown` has carried on and committed. -/
theorem commits_of_run (hrule : ∀ n args, rule n args → fromLogAndCommit n args)
    (h : (machine C rule).Run tr s) (ht : TailsKnown tr) :
    Carried C tr (leaderLogs tr) s ∧ Commits C tr (leaderLogs tr) s := by
  induction h with
  | nil => exact ⟨carried_init C, commits_init C⟩
  | @snoc tr s a hr hen ih =>
    obtain ⟨hprev, hnow⟩ := tailsKnown_snoc ht
    obtain ⟨hcar, hcommits⟩ := ih hprev
    have hlogs : ∀ n args, rule n args → fromLog n args := fun n args hargs => (hrule n args hargs).1
    have hel := elected_of_run hr
    have hmatch := matched_of_run hlogs hr
    have hel' := elected_of_run (hr.snoc a hen)
    have hmatch' := matched_of_run hlogs (hr.snoc a hen)
    have htail : ∀ dst args, a = .deliverAppend dst args →
        TailKnown (leaderLogs tr args.term) (s.node dst) args := by
      rintro dst args rfl
      exact hnow
    have hpre : ((machine C rule).event s a).pre = s := rfl
    obtain ⟨ms, hc⟩ := Change.of_step hmatch hel hen hpre rfl htail
    rw [leaderLogs_snoc] at hmatch' ⊢
    exact ⟨hcar.step hmatch hel hel' hmatch' hc, hcommits.step hcar hel hmatch hen hrule rfl htail hc⟩

theorem stateMachineSafety_of_tailsKnown
    (h : (machine C (fromLogAndCommit : AppendRule ν γ)).Run tr s) (ht : TailsKnown tr) :
    StateMachineSafety tr := by
  obtain ⟨hcar, hcommits⟩ := commits_of_run (fun _ _ hargs => hargs) h ht
  exact hcommits.safe hcar

end Step

instance (tr : History ν γ) : Decidable (TailsKnown tr) :=
  inferInstanceAs (Decidable (∀ n, ∀ h : n < tr.length, MeetsTail (leaderLogs (tr.take n)) tr[n]))

/-- Node 0 is elected, replicates an entry to node 1, commits it and tells node 1 so. -/
def replicatedEntry : List (Action ℕ ℕ) :=
  [.startElection 0, .deliverVoteRequest 1 ⟨1, 0, 0, 0⟩, .promote 0, .propose 0 (some 7),
    .sendAppend 0 1 ⟨1, 0, 0, 0, [⟨1, 1, some 7⟩], 0⟩,
    .deliverAppend 1 ⟨1, 0, 0, 0, [⟨1, 1, some 7⟩], 0⟩, .storeMatch 0 1 ⟨1, true, 1⟩,
    .updateCommit 0, .sendAppend 0 1 ⟨1, 0, 1, 1, [], 1⟩, .deliverAppend 1 ⟨1, 0, 1, 1, [], 1⟩]

theorem stateMachineSafety_replicatedEntry : StateMachineSafety
    ((machine threeNodes fromLogAndCommit).trace (System.init threeNodes) replicatedEntry) :=
  stateMachineSafety_of_tailsKnown (Machine.run_of_legal (by decide)) (by decide +kernel)

/-- Node 0 leads term 1 and keeps its entry to itself.  Node 1 leads term 2, and node 0 acknowledges
its own entry in reply to an empty message; node 1 commits another one at that index, and the next
empty message makes node 0 commit its own. -/
def staleTail : List (Action ℕ ℕ) :=
  [.startElection 0, .deliverVoteRequest 2 ⟨1, 0, 0, 0⟩, .promote 0, .propose 0 (some 7),
    .startElection 1, .startElection 1, .deliverVoteRequest 2 ⟨2, 1, 0, 0⟩, .promote 1,
    .propose 1 (some 9), .sendAppend 1 0 ⟨2, 1, 0, 0, [], 0⟩, .deliverAppend 0 ⟨2, 1, 0, 0, [], 0⟩,
    .storeMatch 1 0 ⟨2, true, 1⟩, .updateCommit 1, .sendAppend 1 0 ⟨2, 1, 0, 0, [], 1⟩,
    .deliverAppend 0 ⟨2, 1, 0, 0, [], 1⟩]

theorem staleTail_not_safe : ¬ ∀ (tr : History ℕ ℕ) (s : System ℕ ℕ),
    (machine threeNodes fromLogAndCommit).Run tr s → StateMachineSafety tr := by
  intro h
  have hsafe := h _ _ (Machine.run_of_legal (by decide) :
    (machine threeNodes fromLogAndCommit).Run (Machine.trace _ _ staleTail) _)
  have hone : Applied ((machine threeNodes fromLogAndCommit).trace (System.init threeNodes) staleTail)
      1 1 ⟨2, 1, some 9⟩ := ⟨_, List.getElem_mem (by decide : 12 < _), by decide⟩
  have hzero : Applied ((machine threeNodes fromLogAndCommit).trace (System.init threeNodes) staleTail)
      0 1 ⟨1, 1, some 7⟩ := ⟨_, List.getElem_mem (by decide : 14 < _), by decide⟩
  exact absurd (hsafe 1 0 1 _ _ hone hzero) (by decide)

end PySQL.Raft
