import PySQL.Raft.Safety

/-!
# What holds whatever the leaders send

A node applies each index once and in order.  While it leads a term, its log only grows.
-/

namespace PySQL.Raft

open Lib RaftNode

set_option linter.unusedSectionVars false

variable {ν γ : Type*} [DecidableEq ν] [DecidableEq γ]

/-- What node `i` applies in the course of a run, oldest first. -/
def appliedBy (tr : History ν γ) (i : ν) : List (ℕ × LogEntry γ) :=
  tr.flatMap fun e => if e.input.actor = i then e.reply else []

theorem appliedBy_snoc (tr : History ν γ) (e : Step ν γ) (i : ν) :
    appliedBy (tr ++ [e]) i = appliedBy tr i ++ if e.input.actor = i then e.reply else [] := by
  simp [appliedBy]

theorem appliedBy_isPrefix {l tr : History ν γ} (h : l <+: tr) (i : ν) :
    appliedBy l i <+: appliedBy tr i := by
  obtain ⟨r, rfl⟩ := h
  rw [appliedBy, appliedBy, List.flatMap_append]
  exact List.prefix_append _ _

theorem mem_appliedBy {tr : History ν γ} {i : ν} {k : ℕ} {x : LogEntry γ} :
    (k, x) ∈ appliedBy tr i ↔ Applied tr i k x := by
  constructor
  · intro h
    obtain ⟨e, he, hmem⟩ := List.mem_flatMap.mp h
    split at hmem
    · next hactor => exact ⟨e, he, hactor, hmem⟩
    · simp at hmem
  · intro ⟨e, he, hactor, hmem⟩
    apply List.mem_flatMap.mpr
    exact ⟨e, he, by rwa [if_pos hactor]⟩

/-! ## Each index once, in order -/

section Once

/-- From `a` to `b`, the value of `last_applied` passes the indices that `out` is about. -/
def Passes (a b : ℕ) (out : List (ℕ × LogEntry γ)) : Prop :=
  a ≤ b ∧ out.map Prod.fst = List.range' (a + 1) (b - a)

theorem Passes.none {a b : ℕ} (h : b = a) : Passes a b ([] : List (ℕ × LogEntry γ)) := by
  subst h
  simp [Passes]

theorem Passes.append {a b c : ℕ} {out out' : List (ℕ × LogEntry γ)} (h : Passes a b out)
    (h' : Passes b c out') : Passes a c (out ++ out') := by
  obtain ⟨hab, hout⟩ := h
  obtain ⟨hbc, hout'⟩ := h'
  refine ⟨hab.trans hbc, ?_⟩
  rw [List.map_append, hout, hout', show b + 1 = a + 1 + 1 * (b - a) by omega,
    List.range'_append, show b - a + (c - b) = c - a by omega]

variable (n : RaftNode ν γ)

/-- The entries up to the commit index are there to be applied. -/
theorem applyEntries_passes (h : n.commitIndex < n.log.length) :
    Passes n.lastApplied (applyEntries n).1.lastApplied (applyEntries n).2 := by
  refine ⟨Nat.le_max_left _ _, ?_⟩
  have hlen : max n.lastApplied n.commitIndex - n.lastApplied = n.commitIndex - n.lastApplied := by
    omega
  show List.map Prod.fst (List.filterMap _ _) = List.range' _ (max _ _ - _)
  rw [hlen, List.map_filterMap]
  -- every index of the range is one of the log
  have hall : ∀ k ∈ List.range' (n.lastApplied + 1) (n.commitIndex - n.lastApplied),
      ((n.log[k]?.map (k, ·)).map Prod.fst) = some k := by
    intro k hk
    rw [List.mem_range'_1] at hk
    rw [List.getElem?_eq_getElem (by omega)]
    rfl
  rw [List.filterMap_congr hall, List.filterMap_some]

theorem foldl_appendEntry_ne_nil {log : List (LogEntry γ)} (h : log ≠ [])
    (entries : List (LogEntry γ)) : entries.foldl appendEntry log ≠ [] := by
  induction entries generalizing log with
  | nil => exact h
  | cons x entries ih =>
    apply ih
    unfold appendEntry
    split
    · split
      · simp
      · exact h
    · simp

theorem advanceCommit_passes (leaderCommit : ℕ) (h : n.log ≠ []) :
    Passes n.lastApplied (n.advanceCommit leaderCommit).1.lastApplied
      (n.advanceCommit leaderCommit).2 := by
  have hpos := List.length_pos_iff.mpr h
  unfold advanceCommit
  split
  · apply applyEntries_passes { n with commitIndex := min leaderCommit (n.log.length - 1) }
    show min _ _ < n.log.length
    omega
  · exact Passes.none rfl

theorem acceptLeader_lastApplied (term : ℕ) :
    (n.acceptLeader term).lastApplied = n.lastApplied := by
  unfold acceptLeader
  split <;> rfl

theorem observeTerm_lastApplied (term : ℕ) :
    (n.observeTerm term).lastApplied = n.lastApplied := by
  unfold observeTerm
  split <;> rfl

theorem handleAppendEntries_passes (args : AppendEntriesArgs ν γ) :
    Passes n.lastApplied (n.handleAppendEntries args).1.lastApplied
      (n.handleAppendEntries args).2.2 := by
  have hout := n.handleAppendEntries_outcome args
  have hkeep := acceptLeader_lastApplied n args.term
  generalize n.handleAppendEntries args = r at hout
  cases hout with
  | stale hlt => exact Passes.none rfl
  | missing hle n₁ hn₁ hprev =>
    subst hn₁
    exact Passes.none hkeep
  | mismatch hle n₁ hn₁ prev hprev hne =>
    subst hn₁
    exact Passes.none hkeep
  | appended hle n₁ hn₁ prev hprev heq r hr =>
    subst hn₁ hr
    -- the previous entry is found, so the log is not empty
    have hne : (n.acceptLeader args.term).log ≠ [] := by
      intro hnil
      rw [hnil] at hprev
      simp at hprev
    rw [← hkeep]
    exact advanceCommit_passes { n.acceptLeader args.term with
      log := args.entries.foldl appendEntry (n.acceptLeader args.term).log } args.leaderCommit
      (foldl_appendEntry_ne_nil hne args.entries)

theorem handleRequestVote_lastApplied (args : RequestVoteArgs ν) :
    (n.handleRequestVote args).1.lastApplied = n.lastApplied := by
  have hout := n.handleRequestVote_outcome args
  have hkeep := observeTerm_lastApplied n args.term
  generalize n.handleRequestVote args = r at hout
  cases hout with
  | stale hlt => rfl
  | denied hle reply hno => exact hkeep
  | granted hle n₁ hn₁ last hlast hup hvote =>
    subst hn₁
    exact hkeep

theorem updateLeaderCommit_passes :
    Passes n.lastApplied n.updateLeaderCommit.1.lastApplied n.updateLeaderCommit.2.2 := by
  unfold updateLeaderCommit
  split
  · exact Passes.none rfl
  · split
    · next N hfind =>
      have hmem := List.mem_of_find?_eq_some hfind
      rw [List.mem_reverse, List.mem_range'_1] at hmem
      apply applyEntries_passes { n with commitIndex := N }
      show N < n.log.length
      omega
    · exact Passes.none rfl

theorem propose_lastApplied (command : Option γ) :
    (n.propose command).1.lastApplied = n.lastApplied := by
  unfold RaftNode.propose
  split <;> rfl

end Once

section Runs

variable {C : Cluster ν} {rule : AppendRule ν γ} {tr : History ν γ} {s : System ν γ}

theorem Won.mono {l : History ν γ} {i : ν} {t : ℕ} (h : Won l i t) (hl : l <+: tr) :
    Won tr i t := by
  obtain ⟨e, he, hin⟩ := h
  exact ⟨e, hl.subset he, hin⟩

theorem System.step_other (s : System ν γ) {a : Action ν γ} {i : ν} (h : a.actor ≠ i) :
    (s.step a).1.node i = s.node i := by
  cases a with
  | sendAppend j dst args => rfl
  | _ => exact Function.update_of_ne (Ne.symm h) _ _

/-- A node that leads after a step, other than its own promotion, led that term before, and has
only appended to its log. -/
theorem System.step_leads {a : Action ν γ} (hst : ((s.step a).1.node a.actor).state = .leader)
    (hpromote : ∀ i, a ≠ .promote i) :
    ((s.step a).1.node a.actor).currentTerm = (s.node a.actor).currentTerm ∧
      (s.node a.actor).log <+: ((s.step a).1.node a.actor).log := by
  by_cases hpropose : ∀ i command, a ≠ .propose i command
  · obtain ⟨-, hterm, hlog⟩ := System.step_leader hpromote hpropose hst
    exact ⟨hterm, hlog ▸ List.prefix_rfl⟩
  · push Not at hpropose
    obtain ⟨i, command, rfl⟩ := hpropose
    have hn : (s.step (.propose i command)).1.node i = ((s.node i).propose command).1 :=
      Function.update_self _ _ _
    rw [Action.actor, hn]
    unfold RaftNode.propose
    split
    · exact ⟨rfl, List.prefix_rfl⟩
    · exact ⟨rfl, List.prefix_append _ _⟩

/-- One step applies the next indices at its node, and nothing elsewhere. -/
theorem System.step_passes (s : System ν γ) (a : Action ν γ) (i : ν) :
    Passes (s.node i).lastApplied ((s.step a).1.node i).lastApplied
      (if a.actor = i then (s.step a).2 else []) := by
  by_cases hi : a.actor = i
  · subst hi
    rw [if_pos rfl]
    have hself : ∀ {n ms}, (s.step a).1 = (s.setNode a.actor n).send ms →
        (s.step a).1.node a.actor = n := by
      intro n ms hstep
      rw [hstep]
      exact Function.update_self _ _ _
    cases a with
    | startElection i => exact Passes.none (by rw [hself rfl]; rfl)
    | promote i =>
      have hn : (s.step (.promote i)).1.node i = (s.node i).promoteToLeader :=
        Function.update_self _ _ _
      exact Passes.none (by rw [Action.actor, hn]; rfl)
    | propose i command =>
      have hn : (s.step (.propose i command)).1.node i = ((s.node i).propose command).1 :=
        Function.update_self _ _ _
      exact Passes.none (by rw [Action.actor, hn, propose_lastApplied])
    | sendAppend i dst args => exact Passes.none rfl
    | deliverVoteRequest dst args =>
      exact Passes.none (by rw [hself rfl]; exact handleRequestVote_lastApplied _ args)
    | deliverAppend dst args =>
      rw [hself rfl]
      exact handleAppendEntries_passes _ args
    | storeMatch i src reply =>
      have hn : (s.step (.storeMatch i src reply)).1.node i =
          { s.node i with matchIndex := (s.node i).matchIndex.set src reply.matchIndex } :=
        Function.update_self _ _ _
      exact Passes.none (by rw [Action.actor, hn])
    | updateCommit i =>
      have hn : (s.step (.updateCommit i)).1.node i = (s.node i).updateLeaderCommit.1 :=
        Function.update_self _ _ _
      rw [Action.actor, hn]
      exact updateLeaderCommit_passes _
  · rw [if_neg hi]
    exact Passes.none (by rw [System.step_other s hi])

theorem passes_of_run (h : (machine C rule).Run tr s) (i : ν) :
    Passes 0 (s.node i).lastApplied (appliedBy tr i) := by
  apply h.invariant (I := fun tr s => Passes 0 (s.node i).lastApplied (appliedBy tr i))
  · exact Passes.none rfl
  · intro tr s a _ ih _
    rw [appliedBy_snoc]
    exact ih.append (System.step_passes s a i)

/-- What a step applies is in the log of its node. -/
theorem System.step_applies (s : System ν γ) (a : Action ν γ) {k : ℕ} {x : LogEntry γ}
    (h : (k, x) ∈ (s.step a).2) : ((s.step a).1.node a.actor).log[k]? = some x := by
  cases a with
  | deliverAppend dst args =>
    have hself : (s.step (.deliverAppend dst args)).1.node dst =
        ((s.node dst).handleAppendEntries args).1 := Function.update_self _ _ _
    have hout := (s.node dst).handleAppendEntries_outcome args
    replace h : (k, x) ∈ ((s.node dst).handleAppendEntries args).2.2 := h
    rw [Action.actor, hself]
    generalize (s.node dst).handleAppendEntries args = r at hout h ⊢
    cases hout with
    | appended hle n₁ hn₁ prev hprev heq r hr =>
      subst hr
      obtain ⟨c, b, hlog⟩ := advanceCommit_eq
        { n₁ with log := args.entries.foldl appendEntry n₁.log } args.leaderCommit
      rw [hlog]
      exact (mem_advanceCommit h).2.2
    | _ => simp at h
  | updateCommit i =>
    have hself : (s.step (.updateCommit i)).1.node i = (s.node i).updateLeaderCommit.1 :=
      Function.update_self _ _ _
    obtain ⟨c, b, hlog⟩ := updateLeaderCommit_eq (s.node i)
    replace h : (k, x) ∈ (s.node i).updateLeaderCommit.2.2 := h
    rw [Action.actor, hself, hlog]
    rcases (s.node i).updateLeaderCommit_outcome with hnone | ⟨N, -, -, -, -, happlied⟩
    · rw [hnone] at h
      simp at h
    · exact (happlied _ h).2
  | _ => simp [System.step] at h

/-- In every run each node has applied the indices from 1 to `last_applied`, each once and in
order, with the entries its log had there, whatever the leaders put into their messages. -/
theorem appliesInOrder_of_run (h : (machine C (anyEntries : AppendRule ν γ)).Run tr s) :
    (∀ i, (appliedBy tr i).map Prod.fst = List.range' 1 (s.node i).lastApplied) ∧
      ∀ e ∈ tr, ∀ r ∈ e.reply,
        ((e.pre.step e.input).1.node e.input.actor).log[r.1]? = some r.2 := by
  constructor
  · exact fun i => (passes_of_run h i).2
  · intro e he r hr
    have hevent := (h.mem_event he).2.2
    rw [hevent] at hr
    exact System.step_applies e.pre e.input hr

/-- Node 0 applies its entry when node 1 has it, and node 1 with the next message. -/
theorem appliesInOrder_replicatedEntry :
    (∀ i, (appliedBy ((machine threeNodes anyEntries).trace (System.init threeNodes)
        replicatedEntry) i).map Prod.fst = List.range' 1 (((machine threeNodes anyEntries).exec
          (System.init threeNodes) replicatedEntry).node i).lastApplied) ∧
      ∀ e ∈ (machine threeNodes anyEntries).trace (System.init threeNodes) replicatedEntry,
        ∀ r ∈ e.reply, ((e.pre.step e.input).1.node e.input.actor).log[r.1]? = some r.2 :=
  appliesInOrder_of_run (Machine.run_of_legal (by decide))

/-! ## A leader only appends -/

/-- From a state `x` on in which it leads a term, a node leads until its term changes, and its log
only grows. -/
theorem leaderAppendOnly_of_run {l : History ν γ} {x : System ν γ}
    (hx : (machine C (anyEntries : AppendRule ν γ)).Run l x)
    (h : (machine C (anyEntries : AppendRule ν γ)).Run tr s) (hl : l <+: tr) {i : ν} {t : ℕ}
    (hfirst : Leads x i t) (hterm : (s.node i).currentTerm = t) :
    Leads s i t ∧ (x.node i).log <+: (s.node i).log := by
  have hwon : Won l i t := hfirst.won hx (.inl rfl)
  have hgrow : (s.node i).currentTerm = t → (x.node i).log <+: (s.node i).log := by
    apply hx.invariant_from h hl (I := fun _ s => (s.node i).currentTerm = t →
      (x.node i).log <+: (s.node i).log)
    · exact fun _ => List.prefix_rfl
    · intro tr s a hpre hr ih hen hterm
      have hel := elected_of_run hr
      have hel' := elected_of_run (hr.snoc a hen)
      have hwon' : Won tr i t := hwon.mono hpre
      by_cases hi : a.actor = i
      · -- after the step, and so before it, the node leads
        have hst := (hel'.won i t (won_snoc.mpr (.inl hwon'))).2 hterm
        subst hi
        have hkeep := System.step_leads (s := s) (a := a) hst (fun i ha => by
          subst ha
          have hcand : (s.node i).state = .candidate := hen.2.1
          have hself : (s.step (.promote i)).1.node i = (s.node i).promoteToLeader :=
            Function.update_self _ _ _
          have hsame : (s.node i).currentTerm = t :=
            (congrArg RaftNode.currentTerm hself).symm.trans hterm
          rw [(hel.won i t hwon').2 hsame] at hcand
          cases hcand)
        exact (ih (hkeep.1.symm.trans hterm)).trans hkeep.2
      · have hother := System.step_other s hi
        rw [show (machine C anyEntries).step s a = s.step a from rfl, hother] at hterm ⊢
        exact ih hterm
  have hel := elected_of_run h
  exact ⟨⟨(hel.won i t (hwon.mono hl)).2 hterm, hterm⟩, hgrow hterm⟩

/-- Node 0 proposes an entry after its promotion, and leads until the end of the run. -/
theorem leaderAppendOnly_replicatedEntry :
    Leads ((machine threeNodes anyEntries).exec (System.init threeNodes) replicatedEntry) 0 1 ∧
      (((machine threeNodes anyEntries).exec (System.init threeNodes)
        (replicatedEntry.take 3)).node 0).log <+:
      (((machine threeNodes anyEntries).exec (System.init threeNodes) replicatedEntry).node 0).log :=
  leaderAppendOnly_of_run (Machine.run_of_legal (by decide)) (Machine.run_of_legal (by decide))
    ⟨_, rfl⟩ ⟨by decide, by decide⟩ (by decide)

end Runs

end PySQL.Raft
