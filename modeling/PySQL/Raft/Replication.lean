import PySQL.Raft.Applied
import PySQL.Raft.MatchIndex

/-!
# What replication gives the state machines

As long as acknowledged tails are the leader's, a commit index never moves back, what lies below it
stays in that log and in those of all later leaders, and the nodes apply initial parts of one
sequence of entries.
-/

namespace PySQL.Raft

open Lib RaftNode

set_option linter.unusedSectionVars false

variable {ν γ : Type*} [DecidableEq ν] [DecidableEq γ]
variable {C : Cluster ν} {rule : AppendRule ν γ} {tr : History ν γ} {s : System ν γ}

/-! ## What is committed stays -/

/-- How a step can move the commit index of the node that takes it from `n` to `n'`. -/
inductive CommitMove (a : Action ν γ) (n n' : RaftNode ν γ) : Prop where
  | same (hcommit : n'.commitIndex = n.commitIndex) (happlied : n'.lastApplied = n.lastApplied)
  | followed (dst : ν) (args : AppendEntriesArgs ν γ) (ha : a = .deliverAppend dst args)
      (hle : n.currentTerm ≤ args.term) (prev : LogEntry γ)
      (hprev : n.log[args.prevLogIndex]? = some prev) (heq : prev.term = args.prevLogTerm)
      (hlog : n'.log = args.entries.foldl appendEntry n.log) (hterm : n'.currentTerm = args.term)
      (hlt : n.commitIndex < args.leaderCommit)
      (hcommit : n'.commitIndex = min args.leaderCommit (n'.log.length - 1))
      (happlied : n'.lastApplied = max n.lastApplied n'.commitIndex)
  | counted (i : ν) (ha : a = .updateCommit i) (hst : n.state = .leader) (hlog : n'.log = n.log)
      (hterm : n'.currentTerm = n.currentTerm) (hlt : n.commitIndex < n'.commitIndex)
      (hmaj : n.committable n'.commitIndex = true)
      (happlied : n'.lastApplied = max n.lastApplied n'.commitIndex)

theorem updateLeaderCommit_cases (n : RaftNode ν γ) : n.updateLeaderCommit.1 = n ∨
    n.state = .leader ∧ ∃ N, n.commitIndex < N ∧ n.committable N = true ∧
      n.updateLeaderCommit.1 =
        { n with commitIndex := N, lastApplied := max n.lastApplied N } := by
  unfold updateLeaderCommit
  split
  · exact .inl rfl
  · next hst =>
    split
    · next N hfind =>
      have hmem := List.mem_of_find?_eq_some hfind
      rw [List.mem_reverse, List.mem_range'_1] at hmem
      exact .inr ⟨not_not.mp hst, N, by omega, List.find?_some hfind, rfl⟩
    · exact .inl rfl

theorem System.step_commit (s : System ν γ) (a : Action ν γ) :
    CommitMove a (s.node a.actor) ((s.step a).1.node a.actor) := by
  have hself : ∀ {n ms}, (s.step a).1 = (s.setNode a.actor n).send ms →
      (s.step a).1.node a.actor = n := by
    intro n ms hstep
    rw [hstep]
    exact Function.update_self _ _ _
  cases a with
  | startElection i => exact .same (by rw [hself rfl]; rfl) (by rw [hself rfl]; rfl)
  | promote i =>
    have hn : (s.step (.promote i)).1.node i = (s.node i).promoteToLeader :=
      Function.update_self _ _ _
    exact .same (by rw [Action.actor, hn]; rfl) (by rw [Action.actor, hn]; rfl)
  | propose i command =>
    have hn : (s.step (.propose i command)).1.node i = ((s.node i).propose command).1 :=
      Function.update_self _ _ _
    have hprop : ∃ log, ((s.node i).propose command).1 = { s.node i with log := log } := by
      unfold RaftNode.propose
      split <;> exact ⟨_, rfl⟩
    obtain ⟨log, hlog⟩ := hprop
    exact .same (by rw [Action.actor, hn, hlog]) (by rw [Action.actor, hn, hlog])
  | sendAppend i dst args => exact .same rfl rfl
  | deliverVoteRequest dst args =>
    have hout := (s.node dst).handleRequestVote_outcome args
    refine .same ?_ ?_ <;> rw [hself rfl]
    · exact hout.matchIndex_eq.2
    · exact handleRequestVote_lastApplied _ args
  | deliverAppend dst args =>
    rw [hself rfl]
    have hout := (s.node dst).handleAppendEntries_outcome args
    have hcommit := acceptLeader_commitIndex (n := s.node dst) args.term
    have happlied := acceptLeader_lastApplied (s.node dst) args.term
    show CommitMove _ (s.node dst) _
    generalize (s.node dst).handleAppendEntries args = r at hout
    cases hout with
    | stale hlt => exact .same rfl rfl
    | missing hle n₁ hn₁ hprev =>
      subst hn₁
      exact .same hcommit happlied
    | mismatch hle n₁ hn₁ prev hprev hne =>
      subst hn₁
      exact .same hcommit happlied
    | appended hle n₁ hn₁ prev hprev heq r hr =>
      subst hn₁ hr
      have hterm := acceptLeader_currentTerm hle
      rw [acceptLeader_log] at hprev
      unfold advanceCommit
      split
      · next hgt =>
        apply CommitMove.followed dst args rfl hle prev hprev heq
        · show List.foldl _ _ _ = _
          rw [acceptLeader_log]
        · exact hterm
        · exact hcommit ▸ hgt
        · rfl
        · exact congrArg (max · _) happlied
      · exact .same hcommit happlied
  | storeMatch i src reply =>
    have hn : (s.step (.storeMatch i src reply)).1.node i =
        { s.node i with matchIndex := (s.node i).matchIndex.set src reply.matchIndex } :=
      Function.update_self _ _ _
    exact .same (by rw [Action.actor, hn]) (by rw [Action.actor, hn])
  | updateCommit i =>
    have hn : (s.step (.updateCommit i)).1.node i = (s.node i).updateLeaderCommit.1 :=
      Function.update_self _ _ _
    rw [Action.actor, hn]
    rcases updateLeaderCommit_cases (s.node i) with hsame | ⟨hst, N, hlt, hmaj, heq⟩
    · rw [hsame]
      exact .same rfl rfl
    · rw [heq]
      exact .counted i rfl hst rfl rfl hlt hmaj rfl

section Settled

variable {own own' : ℕ → List (LogEntry γ)} {i : ν} {ms : List (Message ν γ)}

/-- The log of node `i` up to its commit index is a piece of what was committed in terms up to its
own, and all of it is applied. -/
structure Settled (C : Cluster ν) (tr : History ν γ) (own : ℕ → List (LogEntry γ))
    (s : System ν γ) (i : ν) : Prop where
  inside : (s.node i).commitIndex < (s.node i).log.length
  piece : (s.node i).commitIndex = 0 ∨ ∃ u p, Committed C tr own s u p ∧
    u ≤ (s.node i).currentTerm ∧ (s.node i).log.take ((s.node i).commitIndex + 1) <+: p
  applied : (s.node i).lastApplied = (s.node i).commitIndex

/-- The part of a log up to the commit index. -/
abbrev settledPart (n : RaftNode ν γ) : List (LogEntry γ) := n.log.take (n.commitIndex + 1)

theorem settled_init (C : Cluster ν) (i : ν) :
    Settled C ([] : History ν γ) (leaderLogs ([] : History ν γ)) (System.init C) i where
  inside := Nat.one_pos
  piece := .inl rfl
  applied := rfl

theorem take_one_of_first {log : List (LogEntry γ)} {x : LogEntry γ} (h : log[0]? = some x) :
    log.take 1 = [x] := by
  cases log with
  | nil => cases h
  | cons y rest =>
    obtain rfl : y = x := by simpa using h
    rfl

/-- What is committed at some node is in the log of every leader of its term or a later one. -/
theorem Settled.led (h : Settled C tr own s i) (hcar : Carried C tr own s)
    (hm : Matched tr own s) {t : ℕ} (ht : (s.node i).currentTerm ≤ t) (hne : own t ≠ []) :
    settledPart (s.node i) <+: own t := by
  rcases h.piece with hzero | ⟨u, p, hp, hu, hpre⟩
  · rw [settledPart, hzero, take_one_of_first (hm.first i),
      ← take_one_of_first (hm.ownFirst t hne)]
    exact List.take_prefix _ _
  · exact hpre.trans (hcar.leader_complete hp (hu.trans ht) hne)

/-- A step leaves the committed part of the acting node's log in place. -/
theorem Settled.kept (h : Settled C tr own s i) (hcar : Carried C tr own s)
    (hm : Matched tr own s) {tr' : History ν γ} {s' : System ν γ}
    (hc : Change C tr tr' own own' s s' i ms) : settledPart (s.node i) <+: (s'.node i).log := by
  rcases hc.keeps _ (List.take_prefix _ _) with hkeep | ⟨hne, hlack⟩
  · exact hkeep
  · exact absurd (h.led hcar hm hc.term hne) hlack

theorem Settled.other {j : ν} (h : Settled C tr own s j) {e : Step ν γ} {s' : System ν γ}
    (hc : Change C tr (tr ++ [e]) own own' s s' i ms) (hj : j ≠ i) :
    Settled C (tr ++ [e]) own' s' j where
  inside := by
    rw [hc.other j hj]
    exact h.inside
  piece := by
    rw [hc.other j hj]
    exact h.piece.imp_right fun ⟨u, p, hp, hrest⟩ => ⟨u, p, hc.committed hp, hrest⟩
  applied := by
    rw [hc.other j hj]
    exact h.applied

theorem length_settledPart {n : RaftNode ν γ} (h : n.commitIndex < n.log.length) :
    (settledPart n).length = n.commitIndex + 1 := by
  rw [settledPart, List.length_take]
  omega

/-- One step: the acting node's commit index does not move back, and it stays settled. -/
theorem Settled.step {a : Action ν γ} (h : Settled C tr own s a.actor) (hcar : Carried C tr own s)
    (hcom : Commits C tr own s) (hel : Elected C tr s) (hm : Matched tr own s)
    (hen : s.enabled C rule a)
    (htail : ∀ dst args, a = .deliverAppend dst args →
      TailKnown (own args.term) (s.node dst) args) {e : Step ν γ}
    (hc : Change C tr (tr ++ [e]) own own' s (s.step a).1 a.actor ms) :
    (s.node a.actor).commitIndex ≤ ((s.step a).1.node a.actor).commitIndex ∧
      Settled C (tr ++ [e]) own' (s.step a).1 a.actor := by
  have hkept := h.kept hcar hm hc
  have hlen := hkept.length_le
  rw [length_settledPart h.inside] at hlen
  -- the commit index either stays, or moves to a committed entry after it
  have hsettle : ((s.step a).1.node a.actor).commitIndex = (s.node a.actor).commitIndex ∧
        ((s.step a).1.node a.actor).lastApplied = (s.node a.actor).lastApplied ∨
      (s.node a.actor).commitIndex ≤ ((s.step a).1.node a.actor).commitIndex ∧
        ((s.step a).1.node a.actor).commitIndex < ((s.step a).1.node a.actor).log.length ∧
        ((s.step a).1.node a.actor).lastApplied =
          max (s.node a.actor).lastApplied ((s.step a).1.node a.actor).commitIndex ∧
        ∃ u p, Committed C tr own s u p ∧ u ≤ ((s.step a).1.node a.actor).currentTerm ∧
          settledPart ((s.step a).1.node a.actor) <+: p := by
    cases s.step_commit a with
    | same hcommit happlied => exact .inl ⟨hcommit, happlied⟩
    | followed dst args ha hle prev hprev heq hlog hterm hlt hcommit happlied =>
      subst ha
      refine .inr ⟨by omega, by omega, happlied, ?_⟩
      have hpre : ((s.step (.deliverAppend dst args)).1.node dst).log <+: own args.term := by
        rw [show ((s.step (.deliverAppend dst args)).1.node dst).log = _ from hlog]
        exact hm.accepted hen hle hprev heq (htail dst args rfl)
      obtain ⟨u, p, hp, hlp, hu⟩ := (hcom.sent dst args hen).resolve_left (by omega)
      have hown := hcar.leader_complete hp hu (hm.sent_ne hen)
      refine ⟨u, p, hp, hterm ▸ hu, ?_⟩
      apply List.prefix_of_prefix_length_le ((List.take_prefix _ _).trans hpre) hown
      rw [List.length_take]
      omega
    | counted i ha hst hlog hterm hlt hmaj happlied =>
      subst ha
      obtain ⟨entry, hentry, -⟩ := of_committable _ hmaj
      have hinside := (List.getElem?_eq_some_iff.mp hentry).1
      refine .inr ⟨hlt.le, hlog ▸ hinside, happlied, _, _,
        hcom.committable hel hm hen hst (by omega) hmaj, hterm.ge, ?_⟩
      rw [settledPart, hlog]
      exact List.prefix_rfl
  rcases hsettle with ⟨hcommit, happlied⟩ | ⟨hle, hinside, happlied, u, p, hp, hu, hpiece⟩
  · refine ⟨hcommit.ge, by omega, ?_, by rw [happlied, hcommit, h.applied]⟩
    rw [hcommit]
    refine h.piece.imp_right fun ⟨u, p, hp, hu, hpiece⟩ => ?_
    have htake : ((s.step a).1.node a.actor).log.take ((s.node a.actor).commitIndex + 1) =
        settledPart (s.node a.actor) := by
      rw [← length_settledPart h.inside]
      exact take_eq_of_isPrefix hkept
    exact ⟨u, p, hc.committed hp, hu.trans hc.term, htake ▸ hpiece⟩
  · refine ⟨hle, hinside, .inr ⟨u, p, hc.committed hp, hu, hpiece⟩, ?_⟩
    rw [happlied, h.applied]
    omega

end Settled

theorem TailsKnown.mono {l : History ν γ} (h : TailsKnown tr) (hl : l <+: tr) :
    TailsKnown l := by
  obtain ⟨r, rfl⟩ := hl
  intro n hn
  have hmeets := h n (by rw [List.length_append]; omega)
  rwa [List.getElem_append_left hn, List.take_append_of_le_length hn.le] at hmeets

/-- A step of a run whose messages all meet `TailKnown`. -/
theorem change_of_run {a : Action ν γ}
    (h : (machine C (fromLogAndCommit : AppendRule ν γ)).Run tr s)
    (hen : s.enabled C fromLogAndCommit a)
    (ht : TailsKnown (tr ++ [(machine C fromLogAndCommit).event s a])) :
    (∀ dst args, a = .deliverAppend dst args →
        TailKnown (leaderLogs tr args.term) (s.node dst) args) ∧
      ∃ ms, Change C tr (tr ++ [(machine C fromLogAndCommit).event s a]) (leaderLogs tr)
        (leaderLogs (tr ++ [(machine C fromLogAndCommit).event s a])) s (s.step a).1 a.actor ms := by
  have htail : ∀ dst args, a = .deliverAppend dst args →
      TailKnown (leaderLogs tr args.term) (s.node dst) args := by
    intro dst args ha
    subst ha
    exact (tailsKnown_snoc ht).2
  have hlogs : ∀ (n : RaftNode ν γ) args, fromLogAndCommit n args → fromLog n args :=
    fun _ _ hargs => hargs.1
  rw [leaderLogs_snoc]
  exact ⟨htail, Change.of_step (matched_of_run hlogs h) (elected_of_run h) hen rfl rfl htail⟩

theorem settled_of_run (h : (machine C (fromLogAndCommit : AppendRule ν γ)).Run tr s)
    (ht : TailsKnown tr) (i : ν) : Settled C tr (leaderLogs tr) s i := by
  induction h with
  | nil => exact settled_init C i
  | @snoc tr s a hr hen ih =>
    have hprev := (tailsKnown_snoc ht).1
    obtain ⟨htail, ms, hc⟩ := change_of_run hr hen ht
    obtain ⟨hcar, hcom⟩ := commits_of_run (fun _ _ hargs => hargs) hr hprev
    have hm := matched_of_run (fun _ _ hargs => hargs.1) hr
    by_cases hi : i = a.actor
    · subst hi
      exact ((ih hprev).step hcar hcom (elected_of_run hr) hm hen htail hc).2
    · exact (ih hprev).other hc hi

/-- From a state `x` on, the committed part of a log stays in it, and committed. -/
theorem settledPart_later {l : History ν γ} {x : System ν γ}
    (hx : (machine C (fromLogAndCommit : AppendRule ν γ)).Run l x)
    (h : (machine C (fromLogAndCommit : AppendRule ν γ)).Run tr s) (hl : l <+: tr)
    (ht : TailsKnown tr) (i : ν) : settledPart (x.node i) <+: settledPart (s.node i) := by
  apply hx.invariant_from h hl (I := fun tr s => TailsKnown tr →
    settledPart (x.node i) <+: settledPart (s.node i)) (fun _ => List.prefix_rfl) _ ht
  intro tr s a _ hr ih hen ht
  have hprev := (tailsKnown_snoc ht).1
  obtain ⟨htail, ms, hc⟩ := change_of_run hr hen ht
  refine (ih hprev).trans ?_
  show settledPart (s.node i) <+: settledPart ((s.step a).1.node i)
  by_cases hi : i = a.actor
  · subst hi
    obtain ⟨hcar, hcom⟩ := commits_of_run (fun _ _ hargs => hargs) hr hprev
    have hm := matched_of_run (fun _ _ hargs => hargs.1) hr
    have hset := settled_of_run hr hprev a.actor
    have hle := (hset.step hcar hcom (elected_of_run hr) hm hen htail hc).1
    have hkept := hset.kept hcar hm hc
    rw [List.prefix_take_iff]
    exact ⟨hkept, by rw [length_settledPart hset.inside]; omega⟩
  · rw [hc.other i hi]

/-- What is committed stays committed for the rest of the run. -/
theorem committed_later {l : History ν γ} {x : System ν γ}
    (hx : (machine C (fromLogAndCommit : AppendRule ν γ)).Run l x)
    (h : (machine C (fromLogAndCommit : AppendRule ν γ)).Run tr s) (hl : l <+: tr)
    (ht : TailsKnown tr) {u : ℕ} {p : List (LogEntry γ)}
    (hp : Committed C l (leaderLogs l) x u p) : Committed C tr (leaderLogs tr) s u p := by
  apply hx.invariant_from h hl (I := fun tr s => TailsKnown tr →
    Committed C tr (leaderLogs tr) s u p) (fun _ => hp) _ ht
  intro tr s a _ hr ih hen ht
  obtain ⟨-, ms, hc⟩ := change_of_run hr hen ht
  exact hc.committed (ih (tailsKnown_snoc ht).1)

/-- What a node has committed in the state `x` stays in its log and below its commit index, and is
in the log of every node that leads the same or a later term from then on. -/
theorem committedStays_of_run {l : History ν γ} {x : System ν γ}
    (hx : (machine C (fromLogAndCommit : AppendRule ν γ)).Run l x)
    (h : (machine C (fromLogAndCommit : AppendRule ν γ)).Run tr s) (hl : l <+: tr)
    (ht : TailsKnown tr) (i : ν) :
    settledPart (x.node i) <+: settledPart (s.node i) ∧ ∀ j, (s.node j).state = .leader →
      (x.node i).currentTerm ≤ (s.node j).currentTerm →
        settledPart (x.node i) <+: (s.node j).log := by
  refine ⟨settledPart_later hx h hl ht i, fun j hst hterm => ?_⟩
  have hm := matched_of_run (fun _ _ hargs => hargs.1) h
  have hm₀ := matched_of_run (fun _ _ hargs => hargs.1) hx
  obtain ⟨hcar, -⟩ := commits_of_run (fun _ _ hargs => hargs) h ht
  have hfirst := hm.first j
  rw [← hm.leader j hst] at hfirst ⊢
  rcases (settled_of_run hx (ht.mono hl) i).piece with hzero | ⟨u, p, hp, hu, hpre⟩
  · rw [settledPart, hzero, take_one_of_first (hm₀.first i), ← take_one_of_first hfirst]
    exact List.take_prefix _ _
  · have hlater := committed_later hx h hl ht hp
    have hne : leaderLogs tr (s.node j).currentTerm ≠ [] := by
      intro hnil
      rw [hnil] at hfirst
      cases hfirst
    exact hpre.trans (hcar.leader_complete hlater (hu.trans hterm) hne)

/-- What node 0 commits with the eighth step is in its log at the end. -/
theorem committedStays_replicatedEntry :
    let M := machine threeNodes (fromLogAndCommit : AppendRule ℕ ℕ)
    let x := M.exec (System.init threeNodes) (replicatedEntry.take 8)
    let s := M.exec (System.init threeNodes) replicatedEntry
    settledPart (x.node 0) <+: settledPart (s.node 0) ∧ ∀ j, (s.node j).state = .leader →
      (x.node 0).currentTerm ≤ (s.node j).currentTerm → settledPart (x.node 0) <+: (s.node j).log :=
  committedStays_of_run (Machine.run_of_legal (by decide)) (Machine.run_of_legal (by decide))
    ⟨_, rfl⟩ (by decide +kernel) 0

/-! ## One sequence of entries for all nodes -/

/-- The state of a machine after `apply_fn` is called on the commands of some entries. -/
def replay {σ : Type*} (apply : σ → γ → σ) (st : σ) (entries : List (ℕ × LogEntry γ)) : σ :=
  entries.foldl (fun st r => r.2.command.elim st (apply st)) st

theorem getElem_of_indices {l : List (ℕ × LogEntry γ)} {m : ℕ}
    (h : l.map Prod.fst = List.range' 1 m) {k : ℕ} (hk : k < l.length) :
    l[k] = (1 + k, l[k].2) := by
  have hget : (l.map Prod.fst)[k]? = (List.range' 1 m)[k]? := by rw [h]
  rw [List.getElem?_map, List.getElem?_eq_getElem hk] at hget
  obtain ⟨hlt, hval⟩ := List.getElem?_eq_some_iff.mp hget.symm
  rw [List.getElem_range', Nat.one_mul] at hval
  exact Prod.ext hval.symm rfl

/-- Lists of entries at the indices 1, 2, .. that agree wherever both have one. -/
theorem isPrefix_of_agree {l l' : List (ℕ × LogEntry γ)} {m m' : ℕ}
    (h : l.map Prod.fst = List.range' 1 m) (h' : l'.map Prod.fst = List.range' 1 m')
    (hle : m ≤ m') (hagree : ∀ k x y, (k, x) ∈ l → (k, y) ∈ l' → x = y) : l <+: l' := by
  have hlen : l.length = m := by simpa using congrArg List.length h
  have hlen' : l'.length = m' := by simpa using congrArg List.length h'
  rw [List.prefix_iff_getElem?]
  intro k hk
  have hk' : k < l'.length := by omega
  have hx : (1 + k, l[k].2) ∈ l := getElem_of_indices h hk ▸ List.getElem_mem hk
  have hy : (1 + k, l'[k].2) ∈ l' := getElem_of_indices h' hk' ▸ List.getElem_mem hk'
  rw [List.getElem?_eq_getElem hk', getElem_of_indices h hk, getElem_of_indices h' hk']
  rw [hagree _ _ _ hx hy]

/-- At any two moments of a run, what one node has applied begins what the other has. -/
theorem appliedAgree_of_run (h : (machine C (fromLogAndCommit : AppendRule ν γ)).Run tr s)
    (ht : TailsKnown tr) {l l' : History ν γ} (hl : l <+: tr) (hl' : l' <+: tr) (i j : ν) :
    appliedBy l i <+: appliedBy l' j ∨ appliedBy l' j <+: appliedBy l i := by
  obtain ⟨hcar, hcom⟩ := commits_of_run (fun _ _ hargs => hargs) h ht
  have hsafe := hcom.safe hcar
  -- the one that has applied fewer entries has applied a part of what the other has
  have hle : ∀ i j, (s.node i).lastApplied ≤ (s.node j).lastApplied →
      appliedBy tr i <+: appliedBy tr j := by
    intro i j hle
    apply isPrefix_of_agree (passes_of_run h i).2 (passes_of_run h j).2 hle
    intro k x y hx hy
    exact hsafe i j k x y (mem_appliedBy.mp hx) (mem_appliedBy.mp hy)
  have hi := appliedBy_isPrefix hl i
  have hj := appliedBy_isPrefix hl' j
  rcases Nat.le_total (s.node i).lastApplied (s.node j).lastApplied with hij | hji
  · exact List.prefix_or_prefix_of_prefix (hi.trans (hle i j hij)) hj
  · exact List.prefix_or_prefix_of_prefix hi (hj.trans (hle j i hji))

/-- What a node has applied is in the committed part of its log. -/
theorem mem_settledPart_of_applied (h : (machine C (fromLogAndCommit : AppendRule ν γ)).Run tr s)
    (ht : TailsKnown tr) {i : ν} {k : ℕ} {x : LogEntry γ} (hx : Applied tr i k x) :
    (settledPart (s.node i))[k]? = some x := by
  obtain ⟨e, he, hactor, hmem⟩ := hx
  obtain ⟨l, r, rfl⟩ := List.append_of_mem he
  obtain ⟨hr, hen, hevent⟩ := h.split rfl
  -- the state right after the step that applies the entry
  have hrun := hr.snoc e.input hen
  have hl : l ++ [(machine C fromLogAndCommit).event e.pre e.input] <+: l ++ e :: r := by
    rw [← hevent]
    exact ⟨r, by simp⟩
  rw [hevent] at hmem
  have hentry := System.step_applies e.pre e.input hmem
  rw [hactor] at hentry
  have hbound := (passes_of_run hrun i).2
  have hin : k ∈ (appliedBy (l ++ [(machine C fromLogAndCommit).event e.pre e.input]) i).map
      Prod.fst := by
    apply List.mem_map.mpr
    exact ⟨(k, x), mem_appliedBy.mpr ⟨(machine C fromLogAndCommit).event e.pre e.input, by simp,
      hactor, hmem⟩, rfl⟩
  rw [hbound, List.mem_range'_1, (settled_of_run hrun (ht.mono hl) i).applied] at hin
  apply getElem?_of_isPrefix (settledPart_later hrun h hl ht i)
  rw [settledPart, List.getElem?_take_of_lt (by omega)]
  exact hentry

/-- What a node has applied is its log up to the commit index, without the dummy entry. -/
theorem appliedBy_eq_settled (h : (machine C (fromLogAndCommit : AppendRule ν γ)).Run tr s)
    (ht : TailsKnown tr) (i : ν) :
    (appliedBy tr i).map Prod.snd = (settledPart (s.node i)).drop 1 := by
  have hind := (passes_of_run h i).2
  have hset := settled_of_run h ht i
  have hlen : (appliedBy tr i).length = (s.node i).commitIndex := by
    simpa [hset.applied] using congrArg List.length hind
  apply List.ext_getElem
  · rw [List.length_map, List.length_drop, length_settledPart hset.inside, hlen]
    omega
  · intro k hk hk'
    rw [List.length_map] at hk
    have hmem : (1 + k, (appliedBy tr i)[k].2) ∈ appliedBy tr i :=
      getElem_of_indices hind hk ▸ List.getElem_mem hk
    have hentry := mem_settledPart_of_applied h ht (mem_appliedBy.mp hmem)
    rw [List.getElem_map, List.getElem_drop]
    exact ((List.getElem?_eq_some_iff.mp hentry).2).symm

/-- In two states `x` and `y` of a run, the node that has applied fewer entries has applied the
first of those that the other has, its log up to its commit index; state machines that were given
equally many commands are in one state. -/
theorem replicasAgree_of_run {l l' : History ν γ} {x y : System ν γ}
    (hx : (machine C (fromLogAndCommit : AppendRule ν γ)).Run l x)
    (hy : (machine C (fromLogAndCommit : AppendRule ν γ)).Run l' y)
    (h : (machine C (fromLogAndCommit : AppendRule ν γ)).Run tr s) (hl : l <+: tr) (hl' : l' <+: tr)
    (ht : TailsKnown tr) (i j : ν) (hle : (x.node i).lastApplied ≤ (y.node j).lastApplied) :
    (appliedBy l i).map Prod.snd = (settledPart (x.node i)).drop 1 ∧
      appliedBy l i <+: appliedBy l' j ∧
      ((x.node i).lastApplied = (y.node j).lastApplied → ∀ {σ : Type*} (apply : σ → γ → σ) (st : σ),
        replay apply st (appliedBy l i) = replay apply st (appliedBy l' j)) := by
  have hlen : (appliedBy l i).length = (x.node i).lastApplied := by
    simpa using congrArg List.length (passes_of_run hx i).2
  have hlen' : (appliedBy l' j).length = (y.node j).lastApplied := by
    simpa using congrArg List.length (passes_of_run hy j).2
  have hpre : appliedBy l i <+: appliedBy l' j := by
    rcases appliedAgree_of_run h ht hl hl' i j with hpre | hpre
    · exact hpre
    · rw [hpre.eq_of_length_le (by omega)]
  refine ⟨appliedBy_eq_settled hx (ht.mono hl) i, hpre, fun heq _ apply st => ?_⟩
  rw [hpre.eq_of_length (by omega)]

/-- At the end of the run, nodes 0 and 1 have both applied the one entry. -/
theorem replicasAgree_replicatedEntry :
    let M := machine threeNodes (fromLogAndCommit : AppendRule ℕ ℕ)
    let tr := M.trace (System.init threeNodes) replicatedEntry
    let s := M.exec (System.init threeNodes) replicatedEntry
    (appliedBy tr 1).map Prod.snd = (settledPart (s.node 1)).drop 1 ∧
      appliedBy tr 1 <+: appliedBy tr 0 ∧
      ((s.node 1).lastApplied = (s.node 0).lastApplied → ∀ {σ : Type} (apply : σ → ℕ → σ) (st : σ),
        replay apply st (appliedBy tr 1) = replay apply st (appliedBy tr 0)) :=
  have hr : (machine threeNodes (fromLogAndCommit : AppendRule ℕ ℕ)).Run
      ((machine threeNodes fromLogAndCommit).trace (System.init threeNodes) replicatedEntry)
      ((machine threeNodes fromLogAndCommit).exec (System.init threeNodes) replicatedEntry) :=
    Machine.run_of_legal (by decide)
  replicasAgree_of_run hr hr hr List.prefix_rfl List.prefix_rfl (by decide +kernel) 1 0 (by decide)

end PySQL.Raft
