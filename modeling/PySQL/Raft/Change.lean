import PySQL.Lib.Handover
import PySQL.Raft.LogMatching

/-!
# What a step changes

One statement for all steps of the cluster: a step changes the acting node, adds messages of that
node, and leaves the log of every term as it is or lets it grow.  It holds for a delivered
AppendEntries message if what the follower keeps after the entries of the message is in the log of
the leader.  The code does not check this: it replies with, and may commit, all of the log.
-/

namespace PySQL.Raft

open Lib RaftNode

set_option linter.unusedSectionVars false

variable {ν γ : Type*} [DecidableEq ν] [DecidableEq γ]

/-- An accepted message has an entry that conflicts with the follower's log, or all that the log has
after the entries of the message is in the log of the leader too. -/
def TailKnown (leaderLog : List (LogEntry γ)) (n : RaftNode ν γ) (args : AppendEntriesArgs ν γ) :
    Prop :=
  n.currentTerm ≤ args.term → n.log[args.prevLogIndex]?.map LogEntry.term = some args.prevLogTerm →
    (∃ x ∈ args.entries, n.log[x.index]?.any (fun old => old.term ≠ x.term) = true) ∨
      n.log.drop (args.prevLogIndex + 1 + args.entries.length) <+:
        leaderLog.drop (args.prevLogIndex + 1 + args.entries.length)

instance (leaderLog : List (LogEntry γ)) (n : RaftNode ν γ) (args : AppendEntriesArgs ν γ) :
    Decidable (TailKnown leaderLog n args) :=
  inferInstanceAs (Decidable (_ → _ → _ ∨ _))

/-- Appending an entry of the leader keeps what a log has in common with the leader's. -/
theorem appendEntry_common {p log leaderLog : List (LogEntry γ)} {x : LogEntry γ}
    (hx : leaderLog[x.index]? = some x) (hlog : p <+: log) (hlead : p <+: leaderLog) :
    p <+: appendEntry log x := by
  unfold appendEntry
  split
  · next old hold =>
    split
    · next hne =>
      -- the conflict lies after the common part
      refine (isPrefix_take hlog ?_).trans (List.prefix_append _ _)
      by_contra hlong
      obtain ⟨y, hy⟩ : ∃ y, p[x.index]? = some y := ⟨_, List.getElem?_eq_getElem (by omega)⟩
      have hold' := getElem?_of_isPrefix hlog hy
      have hx' := getElem?_of_isPrefix hlead hy
      rw [hold] at hold'
      rw [hx] at hx'
      exact hne (by rw [Option.some.inj hold', Option.some.inj hx'])
    · exact hlog
  · exact hlog.trans (List.prefix_append _ _)

theorem foldl_appendEntry_common {p log leaderLog entries : List (LogEntry γ)}
    (hentries : ∀ x ∈ entries, leaderLog[x.index]? = some x) (hlog : p <+: log)
    (hlead : p <+: leaderLog) : p <+: entries.foldl appendEntry log := by
  induction entries generalizing log with
  | nil => exact hlog
  | cons x entries ih =>
    have hhead := appendEntry_common (hentries x (by simp)) hlog hlead
    exact ih (fun y hy => hentries y (by simp [hy])) hhead

/-- What the step to `s'`, with the logs `own'` of the terms, changes: node `i`, and the messages
`ms` are sent. -/
structure Change (C : Cluster ν) (tr tr' : History ν γ) (own own' : ℕ → List (LogEntry γ))
    (s s' : System ν γ) (i : ν) (ms : List (Message ν γ)) : Prop where
  other : ∀ j, j ≠ i → s'.node j = s.node j
  sent : s'.messages = s.messages ++ ms
  term : (s.node i).currentTerm ≤ (s'.node i).currentTerm
  won : ∀ v t, Won tr' v t → Won tr v t ∨ v = i ∧ t = (s'.node i).currentTerm
  grows : Grows LogEntry.term own own'
  grown : ∀ t, own' t ≠ own t → (s'.node i).state = .leader ∧ t = (s'.node i).currentTerm
  entries : ∀ x ∈ (s'.node i).log, x ∈ (s.node i).log ∨ x ∈ own (s'.node i).currentTerm ∨
    x.term = (s'.node i).currentTerm
  keeps : ∀ p, p <+: (s.node i).log → p <+: (s'.node i).log ∨
    own (s'.node i).currentTerm ≠ [] ∧ ¬ p <+: own (s'.node i).currentTerm
  replied : ∀ v l t m, .appendReply v l { term := t, success := true, matchIndex := m } ∈ ms →
    v = i ∧ t = (s'.node i).currentTerm ∧ m < (s'.node i).log.length ∧ (s'.node i).log <+: own t
  candidate : (s'.node i).state = .candidate →
    (s'.node i).currentTerm = (s.node i).currentTerm →
      (s.node i).state = .candidate ∧ (s'.node i).log = (s.node i).log
  requested : ∀ dst args, .requestVote dst args ∈ ms → args.candidateId = i ∧
    args.term = (s'.node i).currentTerm ∧ (s.node i).currentTerm < args.term ∧
    (s'.node i).log = (s.node i).log ∧ ∃ last, (s.node i).log.getLast? = some last ∧
      args.lastLogIndex = last.index ∧ args.lastLogTerm = last.term
  granted : ∀ v c t, .voteReply v c { term := t, voteGranted := true } ∈ ms → v = i ∧
    t = (s'.node i).currentTerm ∧ ∃ args, .requestVote i args ∈ s.messages ∧
      args.candidateId = c ∧ args.term = t ∧ ∃ last, (s.node i).log.getLast? = some last ∧
        upToDate last args.lastLogTerm args.lastLogIndex = true
  crowned : ∀ u, own u = [] → own' u ≠ [] → own' u = (s.node i).log ∧
    (s.node i).state = .candidate ∧ (s.node i).currentTerm = u ∧
      IsQuorum C.members (i :: s.granters i)

variable {C : Cluster ν} {rule : AppendRule ν γ} {tr : History ν γ} {s s' : System ν γ}
variable {own own' : ℕ → List (LogEntry γ)} {e : Step ν γ} {i : ν} {n : RaftNode ν γ}

/-- A step in which no leader's log changes and nobody is elected. -/
theorem Change.steady {ms : List (Message ν γ)} (hnode : s'.node = Function.update s.node i n)
    (hms : s'.messages = s.messages ++ ms) (he : ∀ i, e.input ≠ .promote i)
    (hterm : (s.node i).currentTerm ≤ n.currentTerm)
    (hentries : ∀ x ∈ n.log, x ∈ (s.node i).log ∨ x ∈ own n.currentTerm)
    (hkeeps : ∀ p, p <+: (s.node i).log → p <+: n.log ∨
      own n.currentTerm ≠ [] ∧ ¬ p <+: own n.currentTerm)
    (hreplied : ∀ v l t m, .appendReply v l { term := t, success := true, matchIndex := m } ∈ ms →
      v = i ∧ t = n.currentTerm ∧ m < n.log.length ∧ n.log <+: own t)
    (hcand : n.state = .candidate → n.currentTerm = (s.node i).currentTerm →
      (s.node i).state = .candidate ∧ n.log = (s.node i).log)
    (hrequested : ∀ dst args, .requestVote dst args ∈ ms → args.candidateId = i ∧
      args.term = n.currentTerm ∧ (s.node i).currentTerm < args.term ∧
      n.log = (s.node i).log ∧ ∃ last, (s.node i).log.getLast? = some last ∧
        args.lastLogIndex = last.index ∧ args.lastLogTerm = last.term)
    (hgranted : ∀ v c t, .voteReply v c { term := t, voteGranted := true } ∈ ms → v = i ∧
      t = n.currentTerm ∧ ∃ args, .requestVote i args ∈ s.messages ∧ args.candidateId = c ∧
        args.term = t ∧ ∃ last, (s.node i).log.getLast? = some last ∧
          upToDate last args.lastLogTerm args.lastLogIndex = true) :
    Change C tr (tr ++ [e]) own own s s' i ms := by
  obtain rfl : s'.node i = n := by rw [hnode, Function.update_self]
  constructor
  case other => exact fun j hj => by rw [hnode, Function.update_of_ne hj]
  case sent => exact hms
  case term => exact hterm
  case won => exact fun v t hw => .inl ((won_snoc.mp hw).resolve_right fun hp => he v hp.1)
  case grows => exact Grows.refl own
  case grown => exact fun t hne => absurd rfl hne
  case entries => exact fun x hx => (hentries x hx).imp_right .inl
  case keeps => exact hkeeps
  case replied => exact hreplied
  case candidate => exact hcand
  case requested => exact hrequested
  case granted => exact hgranted
  case crowned => exact fun u hnil hne => absurd hnil hne

/-- A step in which no log changes and nobody is elected, stands or votes. -/
theorem Change.quiet {ms : List (Message ν γ)} (hnode : s'.node = Function.update s.node i n)
    (hms : s'.messages = s.messages ++ ms) (he : ∀ i, e.input ≠ .promote i)
    (hterm : (s.node i).currentTerm ≤ n.currentTerm) (hlog : n.log = (s.node i).log)
    (hcand : n.state = .candidate → (s.node i).state = .candidate)
    (hreplied : ∀ v l t m,
      .appendReply v l { term := t, success := true, matchIndex := m } ∉ ms)
    (hrequested : ∀ dst args, .requestVote dst args ∉ ms)
    (hgranted : ∀ v c t, .voteReply v c { term := t, voteGranted := true } ∉ ms) :
    Change C tr (tr ++ [e]) own own s s' i ms := by
  apply Change.steady hnode hms he hterm
  · exact fun x hx => .inl (hlog ▸ hx)
  · exact fun p hp => .inl (hlog.symm ▸ hp)
  · exact fun v l t m hm => absurd hm (hreplied v l t m)
  · exact fun hst _ => ⟨hcand hst, hlog⟩
  · exact fun dst args hm => absurd hm (hrequested dst args)
  · exact fun v c t hm => absurd hm (hgranted v c t)

theorem Change.promote (h : Matched tr own s) (hel : Elected C tr s) (hi : i ∈ C.members)
    (hst : (s.node i).state = .candidate)
    (hmaj : (s.node i).majority ≤ 1 + (s.granters i).length) (hpre : e.pre = s)
    (hin : e.input = .promote i) :
    Change C tr (tr ++ [e]) own (recordLeader own e) s (s.step (.promote i)).1 i [] := by
  have hself : (s.step (.promote i)).1.node i = (s.node i).promoteToLeader :=
    Function.update_self _ _ _
  have hn : (e.pre.step e.input).1.node e.input.actor = (s.node i).promoteToLeader := by
    rw [hpre, hin]
    exact hself
  have hnew := h.no_log hel hi hst hmaj
  have hown : recordLeader own e = Function.update own (s.node i).currentTerm (s.node i).log := by
    rw [recordLeader_leader hn rfl]
    rfl
  have hother : ∀ t, t ≠ (s.node i).currentTerm → recordLeader own e t = own t := fun t ht => by
    rw [hown, Function.update_of_ne ht]
  constructor
  case other => exact fun j hj => Function.update_of_ne hj _ _
  case sent => exact (List.append_nil _).symm
  case term => rw [hself]; exact le_rfl
  case won =>
    intro v t hw
    refine (won_snoc.mp hw).imp_right ?_
    rintro ⟨hv, rfl⟩
    rw [hin, Action.promote.injEq] at hv
    rw [hself, hpre, hv]
    exact ⟨rfl, rfl⟩
  case grows =>
    constructor
    · intro t
      by_cases ht : t = (s.node i).currentTerm
      · rw [ht, hnew]
        exact List.nil_prefix
      · rw [hother t ht]
    · intro t hne k x hx
      have ht : t ≠ (s.node i).currentTerm := fun ht => hne (ht ▸ hnew)
      rw [hother t ht] at hx
      exact .inl hx
  case grown =>
    intro t hne
    rw [hself]
    refine ⟨rfl, ?_⟩
    by_contra ht
    exact hne (hother t ht)
  case entries =>
    rw [hself]
    exact fun x hx => .inl hx
  case keeps =>
    rw [hself]
    exact fun p hp => .inl hp
  case replied => simp
  case candidate =>
    rw [hself]
    intro hlead
    cases hlead
  case requested => simp
  case granted => simp
  case crowned =>
    intro u hnil hne
    have hu : u = (s.node i).currentTerm := by
      by_contra hu
      rw [hother u hu] at hne
      exact hne hnil
    rw [hu, hown, Function.update_self]
    exact ⟨rfl, hst, rfl, hel.quorum_granters hi hmaj⟩

theorem Change.propose (h : Matched tr own s) {command : Option γ} (hpre : e.pre = s)
    (hin : e.input = .propose i command) :
    Change C tr (tr ++ [e]) own (recordLeader own e) s (s.step (.propose i command)).1 i [] := by
  have hself : (s.step (.propose i command)).1.node i = ((s.node i).propose command).1 :=
    Function.update_self _ _ _
  have hn : (e.pre.step e.input).1.node e.input.actor = ((s.node i).propose command).1 := by
    rw [hpre, hin]
    exact hself
  have he : ∀ j, e.input ≠ .promote j := by simp [hin]
  by_cases hst : (s.node i).state = .leader
  · let x : LogEntry γ := { term := (s.node i).currentTerm, index := (s.node i).log.length, command }
    have hprop : ((s.node i).propose command).1 = { s.node i with log := (s.node i).log ++ [x] } := by
      simp [RaftNode.propose, hst, x]
    rw [hprop] at hself hn
    have hown : recordLeader own e =
        Function.update own (s.node i).currentTerm ((s.node i).log ++ [x]) :=
      recordLeader_leader hn hst
    have hlead := h.leader i hst
    have hother : ∀ t, t ≠ (s.node i).currentTerm → recordLeader own e t = own t := fun t ht => by
      rw [hown, Function.update_of_ne ht]
    have hgrown : recordLeader own e (s.node i).currentTerm = own (s.node i).currentTerm ++ [x] := by
      rw [hown, Function.update_self, hlead]
    constructor
    case other => exact fun j hj => Function.update_of_ne hj _ _
    case sent => exact (List.append_nil _).symm
    case term => rw [hself]
    case won => exact fun v t hw => .inl ((won_snoc.mp hw).resolve_right fun hp => he v hp.1)
    case grows =>
      constructor
      · intro t
        by_cases ht : t = (s.node i).currentTerm
        · rw [ht, hgrown]
          exact List.prefix_append _ _
        · rw [hother t ht]
      · intro t _ k y hy
        by_cases ht : t = (s.node i).currentTerm
        · subst ht
          rw [hgrown] at hy
          rcases Nat.lt_or_ge k (own (s.node i).currentTerm).length with hk | hk
          · rw [List.getElem?_append_left hk] at hy
            exact .inl hy
          · rw [List.getElem?_append_right hk] at hy
            obtain rfl : y = x := by simpa using List.mem_of_getElem? hy
            exact .inr rfl
        · rw [hother t ht] at hy
          exact .inl hy
    case grown =>
      intro t hne
      rw [hself]
      refine ⟨hst, ?_⟩
      by_contra ht
      exact hne (hother t ht)
    case entries =>
      rw [hself]
      intro y hy
      refine (List.mem_append.mp hy).imp_right fun hy => .inr ?_
      rw [List.mem_singleton.mp hy]
    case keeps =>
      rw [hself]
      exact fun p hp => .inl (hp.trans (List.prefix_append _ _))
    case replied => simp
    case candidate =>
      rw [hself, hst]
      intro hcand
      cases hcand
    case requested => simp
    case granted => simp
    case crowned =>
      intro u hnil hne
      have hu : u = (s.node i).currentTerm := by
        by_contra hu
        rw [hother u hu] at hne
        exact hne hnil
      -- a leader has a log
      have hfirst := h.first i
      rw [← hlead, ← hu, hnil] at hfirst
      cases hfirst
  · have hprop : ((s.node i).propose command).1 = s.node i := by simp [RaftNode.propose, hst]
    rw [hprop] at hn
    rw [recordLeader_eq hn (h.leader i)]
    refine Change.quiet (congrArg (Function.update s.node i) hprop) (List.append_nil _).symm he le_rfl
      rfl (fun hcand => hcand) ?_ ?_ ?_ <;> simp

/-! ## Delivered messages -/

/-- The log of a follower that accepts a message which meets `TailKnown`. -/
theorem Matched.accepted (h : Matched tr own s) {dst : ν} {args : AppendEntriesArgs ν γ}
    (hm : .appendEntries dst args ∈ s.messages) (hle : (s.node dst).currentTerm ≤ args.term)
    {prev : LogEntry γ} (hprev : (s.node dst).log[args.prevLogIndex]? = some prev)
    (heq : prev.term = args.prevLogTerm)
    (htail : TailKnown (own args.term) (s.node dst) args) :
    args.entries.foldl appendEntry (s.node dst).log <+: own args.term := by
  rcases h.appendLog hm hprev heq with ⟨hsame, hagree, hlen⟩ | htake
  · rw [hsame]
    have hmap : (s.node dst).log[args.prevLogIndex]?.map LogEntry.term = some args.prevLogTerm := by
      rw [hprev, Option.map_some, heq]
    rcases htail hle hmap with ⟨x, hx, hany⟩ | hrest
    · -- a conflict would have changed the log
      obtain ⟨old, hold, hne⟩ := (Option.any_eq_true _ _).mp hany
      obtain ⟨k, hk⟩ := List.mem_iff_getElem?.mp hx
      have hlt := (List.getElem?_eq_some_iff.mp hk).1
      have hown := h.sent_entry hm hk
      have hindex := h.index _ _ _ hown
      rw [hindex, ← List.getElem?_take_of_lt (by omega : _ < args.prevLogIndex + 1 +
        args.entries.length), hagree, List.getElem?_take_of_lt (by omega), hown] at hold
      exact absurd (congrArg LogEntry.term (Option.some.inj hold)).symm (of_decide_eq_true hne)
    · rw [← List.take_append_drop (args.prevLogIndex + 1 + args.entries.length) (s.node dst).log,
        ← List.take_append_drop (args.prevLogIndex + 1 + args.entries.length) (own args.term), hagree]
      exact (List.prefix_append_right_inj _).mpr hrest
  · rw [htake]
    exact ⟨_, List.take_append_drop _ _⟩

theorem Change.deliverAppend (h : Matched tr own s) {dst : ν} {args : AppendEntriesArgs ν γ}
    (hm : .appendEntries dst args ∈ s.messages) (he : ∀ i, e.input ≠ .promote i)
    (htail : TailKnown (own args.term) (s.node dst) args) :
    ∃ reply, Change C tr (tr ++ [e]) own own s (s.step (.deliverAppend dst args)).1 dst
      [.appendReply dst args.leaderId reply] := by
  have hout := (s.node dst).handleAppendEntries_outcome args
  have hfirst := (h.outcome hm hout).2
  have hown : own args.term ≠ [] := h.sent_ne hm
  simp only [System.step]
  generalize (s.node dst).handleAppendEntries args = r at hout hfirst ⊢
  refine ⟨r.2.1, ?_⟩
  cases hout with
  | stale hlt => exact Change.quiet rfl rfl he le_rfl rfl (fun hst => hst) (by simp) (by simp) (by simp)
  | missing hle n₁ hn₁ hprev =>
    subst hn₁
    have hst := (s.node dst).acceptLeader_state args.term
    have hterm := (acceptLeader_currentTerm hle).symm
    refine Change.quiet rfl rfl he (hle.trans_eq hterm) (acceptLeader_log _ _) ?_ ?_ ?_ ?_
    · rw [hst]
      intro hcand
      cases hcand
    all_goals simp
  | mismatch hle n₁ hn₁ prev hprev hne =>
    subst hn₁
    have hterm := acceptLeader_currentTerm hle
    rw [acceptLeader_log] at hprev
    refine Change.steady rfl rfl he (hle.trans_eq hterm.symm) ?_ ?_ (by simp) ?_ (by simp) (by simp)
    · intro x hx
      rw [acceptLeader_log] at hx
      exact .inl (List.mem_of_mem_take hx)
    · intro p hp
      rw [acceptLeader_log, hterm]
      by_cases hlead : p <+: own args.term
      · -- the leader has another entry at the place where the log is cut
        refine .inl (isPrefix_take hp ?_)
        by_contra hlong
        obtain ⟨x, hx⟩ : ∃ x, p[args.prevLogIndex]? = some x :=
          ⟨_, List.getElem?_eq_getElem (by omega)⟩
        have hx' := getElem?_of_isPrefix hp hx
        rw [hprev] at hx'
        have hsent := (h.sent dst args hm).1
        rw [getElem?_of_isPrefix hlead hx, Option.map_some, ← Option.some.inj hx'] at hsent
        exact hne (Option.some.inj hsent)
      · exact .inr ⟨hown, hlead⟩
    · intro hst
      rw [acceptLeader_state] at hst
      cases hst
  | appended hle n₁ hn₁ prev hprev heq r hr =>
    subst hn₁
    have hterm := acceptLeader_currentTerm hle
    have hst := (s.node dst).acceptLeader_state args.term
    obtain ⟨c, a, hadv⟩ := advanceCommit_eq { (s.node dst).acceptLeader args.term with
      log := args.entries.foldl appendEntry ((s.node dst).acceptLeader args.term).log }
      args.leaderCommit
    rw [← hr] at hadv
    rw [acceptLeader_log] at hprev hadv
    simp only [hadv] at hfirst ⊢
    have hpre := h.accepted hm hle hprev heq htail
    refine Change.steady rfl rfl he (hle.trans_eq hterm.symm) ?_ ?_ ?_ ?_ (by simp) (by simp)
    · exact fun x hx => .inr (hterm.symm ▸ hpre.subset hx)
    · intro p hp
      rw [hterm]
      by_cases hlead : p <+: own args.term
      · refine .inl (foldl_appendEntry_common (fun x hx => ?_) hp hlead)
        obtain ⟨k, hk⟩ := List.mem_iff_getElem?.mp hx
        have hx' := h.sent_entry hm hk
        rwa [h.index _ _ _ hx']
      · exact .inr ⟨hown, hlead⟩
    · intro v l t m hmem
      simp only [List.mem_singleton, Message.appendReply.injEq, AppendEntriesReply.mk.injEq] at hmem
      obtain ⟨rfl, rfl, rfl, -, rfl⟩ := hmem
      have hpos := (List.getElem?_eq_some_iff.mp hfirst).1
      exact ⟨rfl, rfl, Nat.sub_lt hpos one_pos, hterm.symm ▸ hpre⟩
    · intro hcand
      rw [hst] at hcand
      cases hcand

theorem Change.deliverVoteRequest {dst : ν} {args : RequestVoteArgs ν}
    (hm : .requestVote dst args ∈ s.messages) (he : ∀ i, e.input ≠ .promote i) :
    ∃ ms, Change C tr (tr ++ [e]) own own s (s.step (.deliverVoteRequest dst args)).1 dst ms := by
  have hout := (s.node dst).handleRequestVote_outcome args
  simp only [System.step]
  generalize (s.node dst).handleRequestVote args = r at hout ⊢
  refine ⟨r.2.toList.map (.voteReply dst args.candidateId), ?_⟩
  have hcand : ((s.node dst).observeTerm args.term).state = .candidate →
      (s.node dst).state = .candidate := by
    rcases (s.node dst).observeTerm_eq_or args.term with ⟨heq, -⟩ | ⟨heq, -⟩ <;> rw [heq]
    · intro hst
      cases hst
    · exact fun hst => hst
  cases hout with
  | stale hlt =>
    refine Change.quiet rfl rfl he le_rfl rfl (fun hst => hst) ?_ ?_ ?_ <;> simp
  | denied hle reply hno =>
    refine Change.quiet rfl rfl he (hle.trans_eq (observeTerm_currentTerm hle).symm)
      (observeTerm_log _ _) hcand (by simp) (by simp) ?_
    intro v c t hmem
    obtain ⟨r, hr, heq⟩ := List.mem_map.mp hmem
    cases heq
    simpa using hno _ (Option.mem_toList.mp hr)
  | granted hle n₁ hn₁ last hlast hup hvote =>
    subst hn₁
    have hterm := observeTerm_currentTerm hle
    rw [observeTerm_log] at hlast
    refine Change.steady rfl rfl he (hle.trans_eq hterm.symm) ?_ ?_ (by simp) ?_ (by simp) ?_
    · exact fun x hx => .inl (observeTerm_log (s.node dst) _ ▸ hx)
    · exact fun p hp => .inl ((observeTerm_log (s.node dst) _).symm ▸ hp)
    · exact fun hst _ => ⟨hcand hst, observeTerm_log _ _⟩
    · intro v c t hmem
      simp only [Option.toList_some, List.map_cons, List.map_nil, List.mem_singleton,
        Message.voteReply.injEq, RequestVoteReply.mk.injEq] at hmem
      obtain ⟨rfl, rfl, rfl, -⟩ := hmem
      exact ⟨rfl, rfl, args, hm, rfl, hterm.symm, last, hlast, hup⟩

theorem Change.startElection (hel : Elected C tr s) (he : ∀ i, e.input ≠ .promote i) :
    ∃ ms, Change C tr (tr ++ [e]) own own s (s.step (.startElection i)).1 i ms := by
  refine ⟨_, Change.steady rfl rfl he (Nat.le_succ _) ?_ ?_ (by simp) ?_ ?_ (by simp)⟩
  · exact fun x hx => .inl hx
  · exact fun p hp => .inl hp
  · exact fun _ ht => absurd ht (Nat.succ_ne_self _)
  · intro dst args hmem
    obtain ⟨p, hp, heq⟩ := List.mem_map.mp hmem
    cases hlast : (s.node i).log.getLast? with
    | none => simp [RaftNode.startElection, hlast] at hp
    | some last =>
      simp only [RaftNode.startElection, hlast, Option.map_some, Option.getD_some, List.mem_map] at hp
      obtain ⟨peer, hpeer, rfl⟩ := hp
      cases heq
      exact ⟨(hel.id i).1, rfl, Nat.lt_succ_self _, rfl, last, rfl, rfl, rfl⟩

/-- Every step of a cluster in which all AppendEntries deliveries meet `TailKnown`. -/
theorem Change.of_step (h : Matched tr own s) (hel : Elected C tr s) {a : Action ν γ}
    (hen : s.enabled C rule a) (hpre : e.pre = s) (hin : e.input = a)
    (htail : ∀ dst args, a = .deliverAppend dst args →
      TailKnown (own args.term) (s.node dst) args) :
    ∃ ms, Change C tr (tr ++ [e]) own (recordLeader own e) s (s.step a).1 a.actor ms := by
  have he : (∀ i, a ≠ .promote i) → ∀ i, e.input ≠ .promote i := fun ha => hin ▸ ha
  have hsteady := h.steady hpre hin
  cases a with
  | promote i => exact ⟨_, Change.promote h hel hen.1 hen.2.1 hen.2.2 hpre hin⟩
  | propose i command => exact ⟨_, Change.propose h hpre hin⟩
  | startElection i =>
    rw [hsteady (by simp) (by simp)]
    exact Change.startElection hel (he (by simp))
  | sendAppend i dst args =>
    rw [hsteady (by simp) (by simp)]
    exact ⟨_, Change.quiet (Function.update_eq_self i _).symm rfl (he (by simp)) le_rfl rfl
      (fun hst => hst) (by simp) (by simp) (by simp)⟩
  | deliverVoteRequest dst args =>
    rw [hsteady (by simp) (by simp)]
    exact Change.deliverVoteRequest hen (he (by simp))
  | deliverAppend dst args =>
    rw [hsteady (by simp) (by simp)]
    obtain ⟨reply, hchange⟩ := Change.deliverAppend h hen (he (by simp)) (htail dst args rfl)
    exact ⟨_, hchange⟩
  | storeMatch i src reply =>
    rw [hsteady (by simp) (by simp)]
    exact ⟨_, Change.quiet rfl (List.append_nil _).symm (he (by simp)) le_rfl rfl
      (fun hst => hst) (by simp) (by simp) (by simp)⟩
  | updateCommit i =>
    obtain ⟨c, a, heq⟩ := updateLeaderCommit_eq (s.node i)
    rw [hsteady (by simp) (by simp)]
    refine ⟨_, Change.quiet rfl (List.append_nil _).symm (he (by simp)) ?_ ?_ ?_ (by simp) (by simp)
      (by simp)⟩
    · rw [heq]
      exact le_rfl
    · rw [heq]
      rfl
    · rw [heq]
      exact fun hst => hst

end PySQL.Raft
