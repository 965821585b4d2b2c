import PySQL.Lib.Origin
import PySQL.Raft.Election

/-!
# Log matching

The leader of a term only ever appends to its log, so every term has one log: the last log that its
leader had.  Every log in the cluster is backed by these, and every AppendEntries message carries a
piece of the one of its term.
-/

namespace PySQL.Raft

open Lib RaftNode

set_option linter.unusedSectionVars false

variable {ν γ : Type*} [DecidableEq ν] [DecidableEq γ]

/-- The leader's log of each term after one more step. -/
def recordLeader (own : ℕ → List (LogEntry γ)) (e : Step ν γ) : ℕ → List (LogEntry γ) :=
  let n := (e.pre.step e.input).1.node e.input.actor
  if n.state = .leader then Function.update own n.currentTerm n.log else own

/-- The last log that the leader of each term had; term 0 has the dummy entry. -/
def leaderLogs (tr : History ν γ) : ℕ → List (LogEntry γ) :=
  tr.foldl recordLeader fun t => if t = 0 then [dummyEntry γ] else []

theorem leaderLogs_snoc (tr : History ν γ) (e : Step ν γ) :
    leaderLogs (tr ++ [e]) = recordLeader (leaderLogs tr) e := by
  rw [leaderLogs, List.foldl_append]
  rfl

/-- The logs and messages of a run are those of the leaders. -/
structure Matched (tr : History ν γ) (own : ℕ → List (LogEntry γ)) (s : System ν γ) : Prop where
  backed : ∀ i, Backed LogEntry.term own (s.node i).log
  origins : ∀ t, Backed LogEntry.term own (own t)
  index : ∀ (t k : ℕ) (x : LogEntry γ), (own t)[k]? = some x → x.index = k
  first : ∀ i, (s.node i).log[0]? = some (dummyEntry γ)
  ownFirst : ∀ t, own t ≠ [] → (own t)[0]? = some (dummyEntry γ)
  leader : ∀ i, (s.node i).state = .leader → own (s.node i).currentTerm = (s.node i).log
  won : ∀ t, own t ≠ [] → t = 0 ∨ ∃ i, Won tr i t
  sent : ∀ dst args, .appendEntries dst args ∈ s.messages →
    (own args.term)[args.prevLogIndex]?.map LogEntry.term = some args.prevLogTerm ∧
      args.entries <+: (own args.term).drop (args.prevLogIndex + 1)

/-! ## The append loop -/

/-- Where a log agrees with the leader's, appending a run of the leader's entries either changes
nothing, the run being there already, or makes it the leader's log up to the end of the run. -/
theorem foldl_appendEntry {own : ℕ → List (LogEntry γ)} {log leaderLog : List (LogEntry γ)}
    (hlead : Backed LogEntry.term own leaderLog)
    (hindex : ∀ (k : ℕ) (x : LogEntry γ), leaderLog[k]? = some x → x.index = k)
    {entries : List (LogEntry γ)} {p : ℕ}
    (hlog : Backed LogEntry.term own log) (hp : p < log.length)
    (hagree : log.take (p + 1) = leaderLog.take (p + 1))
    (hrun : entries <+: leaderLog.drop (p + 1)) :
    (entries.foldl appendEntry log = log ∧
        log.take (p + 1 + entries.length) = leaderLog.take (p + 1 + entries.length) ∧
        p + entries.length < log.length) ∨
      entries.foldl appendEntry log = leaderLog.take (p + 1 + entries.length) := by
  induction entries generalizing p log with
  | nil => exact .inl ⟨rfl, hagree, hp⟩
  | cons x entries ih =>
    obtain ⟨rest, hrest⟩ := hrun
    have hx : leaderLog[p + 1]? = some x := by
      have hget : (leaderLog.drop (p + 1))[0]? = some x := by rw [← hrest]; rfl
      rwa [List.getElem?_drop] at hget
    have hrun' : entries <+: leaderLog.drop (p + 2) := by
      refine ⟨rest, ?_⟩
      rw [← List.tail_drop, ← hrest]
      rfl
    have hlen := (List.getElem?_eq_some_iff.mp hx).1
    have htake : leaderLog.take (p + 2) = leaderLog.take (p + 1) ++ [x] := by
      rw [List.take_add_one, hx]
      rfl
    have hcount : p + 1 + (x :: entries).length = p + 1 + 1 + entries.length := by
      rw [List.length_cons]
      omega
    rw [List.foldl_cons, hcount]
    -- once the loop has written an entry, the log ends with it
    have written : appendEntry log x = leaderLog.take (p + 2) →
        entries.foldl appendEntry (appendEntry log x) =
          leaderLog.take (p + 1 + 1 + entries.length) := by
      intro happ
      have hlen' : (leaderLog.take (p + 2)).length = p + 2 := by
        rw [List.length_take]
        omega
      have hp' : p + 1 < (leaderLog.take (p + 2)).length := by omega
      rw [happ]
      rcases ih (hlead.take (p + 2)) hp' (by rw [List.take_take, Nat.min_self]) hrun' with
        ⟨heq, -, hlt⟩ | heq
      · have hnil : entries = [] := List.length_eq_zero_iff.mp (by omega)
        rw [hnil]
        rfl
      · exact heq
    cases hold : log[p + 1]? with
    | none =>
      refine .inr (written ?_)
      have hle := List.getElem?_eq_none_iff.mp hold
      rw [appendEntry, hindex _ _ hx, hold, htake, ← hagree, List.take_of_length_le hle]
    | some old =>
      by_cases hterm : old.term = x.term
      · have happ : appendEntry log x = log := by
          rw [appendEntry, hindex _ _ hx, hold]
          simp [hterm]
        rw [happ]
        have hlt := (List.getElem?_eq_some_iff.mp hold).1
        rcases ih hlog hlt (hlog.agree hlead hold hx hterm) hrun' with ⟨heq, hag, hlt'⟩ | heq
        · exact .inl ⟨heq, hag, by rw [List.length_cons]; omega⟩
        · exact .inr heq
      · refine .inr (written ?_)
        rw [appendEntry, hindex _ _ hx, hold]
        simp only [ne_eq, hterm, not_false_eq_true, if_true]
        rw [hagree, htake]

/-! ## Every step keeps the logs matched -/

theorem matched_init (C : Cluster ν) :
    Matched ([] : History ν γ) (leaderLogs ([] : History ν γ)) (System.init C) where
  backed i k x hx := by
    have hk : k = 0 ∧ dummyEntry γ = x := by
      cases k with
      | zero => exact ⟨rfl, Option.some.inj hx⟩
      | succ k => simp [System.init] at hx
    obtain ⟨rfl, rfl⟩ := hk
    exact List.prefix_rfl
  origins t k x hx := by
    by_cases ht : t = 0
    · subst ht
      have hk : k = 0 ∧ dummyEntry γ = x := by
        cases k with
        | zero => exact ⟨rfl, Option.some.inj hx⟩
        | succ k => simp [leaderLogs] at hx
      obtain ⟨rfl, rfl⟩ := hk
      exact List.prefix_rfl
    · simp [leaderLogs, ht] at hx
  index t k x hx := by
    by_cases ht : t = 0
    · cases k with
      | zero =>
        obtain rfl : dummyEntry γ = x := by simpa [leaderLogs, ht] using hx
        rfl
      | succ k => simp [leaderLogs, ht] at hx
    · simp [leaderLogs, ht] at hx
  first i := rfl
  ownFirst t hne := by
    by_cases ht : t = 0
    · simp [leaderLogs, ht]
    · simp [leaderLogs, ht] at hne
  leader i hst := by simp [System.init] at hst
  won t hne := by
    by_cases ht : t = 0
    · exact .inl ht
    · simp [leaderLogs, ht] at hne
  sent dst args hm := by simp [System.init] at hm

variable {C : Cluster ν} {rule : AppendRule ν γ} {tr : History ν γ} {s s' : System ν γ}
variable {own : ℕ → List (LogEntry γ)} {e : Step ν γ} {i : ν} {n : RaftNode ν γ}

/-- A step that no leader's log changes in: one node changes and messages are added. -/
theorem Matched.update (h : Matched tr own s) {ms : List (Message ν γ)}
    (hnode : s'.node = Function.update s.node i n) (hms : s'.messages = s.messages ++ ms)
    (hback : Backed LogEntry.term own n.log) (hfirst : n.log[0]? = some (dummyEntry γ))
    (hlead : n.state = .leader → own n.currentTerm = n.log)
    (hsent : ∀ dst args, .appendEntries dst args ∈ ms →
      (own args.term)[args.prevLogIndex]?.map LogEntry.term = some args.prevLogTerm ∧
        args.entries <+: (own args.term).drop (args.prevLogIndex + 1)) :
    Matched (tr ++ [e]) own s' where
  backed j := by
    by_cases hj : j = i
    · rwa [hnode, hj, Function.update_self]
    · rw [hnode, Function.update_of_ne hj]
      exact h.backed j
  origins := h.origins
  index := h.index
  first j := by
    by_cases hj : j = i
    · rwa [hnode, hj, Function.update_self]
    · rw [hnode, Function.update_of_ne hj]
      exact h.first j
  ownFirst := h.ownFirst
  leader j hst := by
    by_cases hj : j = i
    · rw [hnode, hj, Function.update_self] at hst ⊢
      exact hlead hst
    · rw [hnode, Function.update_of_ne hj] at hst ⊢
      exact h.leader j hst
  won t hne := (h.won t hne).imp_right fun ⟨j, hj⟩ => ⟨j, won_snoc.mpr (.inl hj)⟩
  sent dst args hm := by
    rw [hms, List.mem_append] at hm
    exact hm.elim (h.sent dst args) (hsent dst args)

/-- A step in which a leader's log becomes the log of its term: it is new, or has grown. -/
theorem Matched.grow (h : Matched tr own s) (hel : Elected C (tr ++ [e]) s')
    (hnode : s'.node = Function.update s.node i n) (hms : s'.messages = s.messages)
    (hst : n.state = .leader) (hext : own n.currentTerm <+: n.log)
    (hback : Backed LogEntry.term (Function.update own n.currentTerm n.log) n.log)
    (hfirst : n.log[0]? = some (dummyEntry γ))
    (hindex : ∀ (k : ℕ) (x : LogEntry γ), n.log[k]? = some x → x.index = k) :
    Matched (tr ++ [e]) (Function.update own n.currentTerm n.log) s' := by
  have hown : ∀ t, own t <+: Function.update own n.currentTerm n.log t := by
    intro t
    by_cases ht : t = n.currentTerm
    · rwa [ht, Function.update_self]
    · rw [Function.update_of_ne ht]
  have hself : s'.node i = n := by rw [hnode, Function.update_self]
  have hwon : Won (tr ++ [e]) i n.currentTerm := by
    have hw := hel.leads i (by rwa [hself])
    rwa [hself] at hw
  refine ⟨fun j => ?_, fun t => ?_, fun t k x hx => ?_, fun j => ?_, fun t hne => ?_,
    fun j hlead => ?_, fun t hne => ?_, fun dst args hm => ?_⟩
  · by_cases hj : j = i
    · rwa [hj, hself]
    · rw [hnode, Function.update_of_ne hj]
      exact (h.backed j).mono hown
  · by_cases ht : t = n.currentTerm
    · rwa [ht, Function.update_self]
    · rw [Function.update_of_ne ht]
      exact (h.origins t).mono hown
  · by_cases ht : t = n.currentTerm
    · rw [ht, Function.update_self] at hx
      exact hindex k x hx
    · rw [Function.update_of_ne ht] at hx
      exact h.index t k x hx
  · by_cases hj : j = i
    · rwa [hj, hself]
    · rw [hnode, Function.update_of_ne hj]
      exact h.first j
  · by_cases ht : t = n.currentTerm
    · rwa [ht, Function.update_self]
    · rw [Function.update_of_ne ht] at hne ⊢
      exact h.ownFirst t hne
  · by_cases hj : j = i
    · rw [hj, hself, Function.update_self]
    · -- another leader leads another term
      have hne : (s'.node j).currentTerm ≠ n.currentTerm := fun ht =>
        hj (hel.unique j i _ (ht ▸ hel.leads j hlead) hwon)
      rw [Function.update_of_ne hne]
      rw [hnode, Function.update_of_ne hj] at hlead ⊢
      exact h.leader j hlead
  · by_cases ht : t = n.currentTerm
    · exact .inr ⟨i, ht ▸ hwon⟩
    · rw [Function.update_of_ne ht] at hne
      exact (h.won t hne).imp_right fun ⟨j, hj⟩ => ⟨j, won_snoc.mpr (.inl hj)⟩
  · rw [hms] at hm
    obtain ⟨hprev, hrun⟩ := h.sent dst args hm
    obtain ⟨x, hx, hterm⟩ := Option.map_eq_some_iff.mp hprev
    refine ⟨?_, hrun.trans ((hown _).drop _)⟩
    rw [getElem?_of_isPrefix (hown _) hx, Option.map_some, hterm]

/-- A step after which the acting node, if a leader, has the log on record. -/
theorem recordLeader_eq (hn : (e.pre.step e.input).1.node e.input.actor = n)
    (hlead : n.state = .leader → own n.currentTerm = n.log) : recordLeader own e = own := by
  unfold recordLeader
  rw [hn]
  simp only
  split
  · next hst => rw [← hlead hst, Function.update_eq_self]
  · rfl

theorem recordLeader_leader (hn : (e.pre.step e.input).1.node e.input.actor = n)
    (hst : n.state = .leader) : recordLeader own e = Function.update own n.currentTerm n.log := by
  unfold recordLeader
  rw [hn]
  simp [hst]

theorem Matched.entry_index (h : Matched tr own s) {k : ℕ} {x : LogEntry γ}
    (hx : (s.node i).log[k]? = some x) : x.index = k :=
  h.index _ k x ((h.backed i).getElem? hx)

/-- Nobody has led the term of a candidate that is about to be promoted. -/
theorem Matched.no_log (h : Matched tr own s) (hel : Elected C tr s) (hi : i ∈ C.members)
    (hst : (s.node i).state = .candidate)
    (hmaj : (s.node i).majority ≤ 1 + (s.granters i).length) : own (s.node i).currentTerm = [] := by
  by_contra hne
  rcases h.won _ hne with h0 | ⟨j, hj⟩
  · have hpos := (hel.own i (by simp [hst])).2
    omega
  · have hall : ∀ v ∈ i :: s.granters i, v = i ∨ Granted s v i (s.node i).currentTerm :=
      fun v hv => (List.mem_cons.mp hv).imp_right fun hv => by
        simpa [Granted] using (List.mem_filter.mp hv).2
    obtain rfl := hel.unique_of_quorum hst (hel.quorum_granters hi hmaj) hall hj
    rw [(hel.won j _ hj).2 rfl] at hst
    cases hst

theorem Matched.promote (h : Matched tr own s) (hel : Elected C tr s) (hi : i ∈ C.members)
    (hst : (s.node i).state = .candidate)
    (hmaj : (s.node i).majority ≤ 1 + (s.granters i).length) (hpre : e.pre = s)
    (hin : e.input = .promote i) :
    Matched (tr ++ [e]) (recordLeader own e) (s.step (.promote i)).1 := by
  have hel' := hel.promote hi hst hmaj hpre hin
  have hn : (e.pre.step e.input).1.node e.input.actor = (s.node i).promoteToLeader := by
    rw [hpre, hin]
    exact Function.update_self _ _ _
  have hnew := h.no_log hel hi hst hmaj
  rw [recordLeader_leader hn rfl]
  refine h.grow hel' rfl rfl rfl ?_ ?_ (h.first i) fun k x hx => h.entry_index hx
  · change own (s.node i).currentTerm <+: _
    rw [hnew]
    exact List.nil_prefix
  · refine (h.backed i).mono fun t => ?_
    by_cases ht : t = (s.node i).currentTerm
    · subst ht
      rw [hnew]
      exact List.nil_prefix
    · change own t <+: Function.update own (s.node i).currentTerm _ t
      rw [Function.update_of_ne ht]

theorem Matched.propose (h : Matched tr own s) {command : Option γ} (hpre : e.pre = s)
    (hin : e.input = .propose i command)
    (hel : Elected C (tr ++ [e]) (s.step (.propose i command)).1) :
    Matched (tr ++ [e]) (recordLeader own e) (s.step (.propose i command)).1 := by
  by_cases hst : (s.node i).state = .leader
  · let x : LogEntry γ := { term := (s.node i).currentTerm, index := (s.node i).log.length, command }
    have hprop : ((s.node i).propose command).1 = { s.node i with log := (s.node i).log ++ [x] } := by
      simp [RaftNode.propose, hst, x]
    have hn : (e.pre.step e.input).1.node e.input.actor =
        { s.node i with log := (s.node i).log ++ [x] } := by
      rw [hpre, hin, ← hprop]
      exact Function.update_self _ _ _
    have hnode : (s.step (.propose i command)).1.node =
        Function.update s.node i { s.node i with log := (s.node i).log ++ [x] } := by
      rw [← hprop]
      rfl
    have hown := h.leader i hst
    rw [recordLeader_leader hn hst]
    refine h.grow hel hnode rfl hst ?_ ?_ ?_ ?_
    · exact hown ▸ List.prefix_append _ _
    · refine Backed.snoc ((h.backed i).mono fun t => ?_) ?_
      · by_cases ht : t = (s.node i).currentTerm
        · rw [ht, Function.update_self, hown]
          exact List.prefix_append _ _
        · simp only [Function.update_of_ne ht, List.prefix_rfl]
      · simp only [x, Function.update_self, List.prefix_rfl]
    · exact getElem?_of_isPrefix (List.prefix_append _ _) (h.first i)
    · intro k y hy
      rcases Nat.lt_trichotomy k (s.node i).log.length with hk | rfl | hk
      · rw [List.getElem?_append_left hk] at hy
        exact h.entry_index hy
      · obtain rfl : x = y := by simpa using hy
        rfl
      · rw [List.getElem?_eq_none (by simpa using hk)] at hy
        cases hy
  · have hprop : ((s.node i).propose command).1 = s.node i := by simp [RaftNode.propose, hst]
    have hn : (e.pre.step e.input).1.node e.input.actor = s.node i := by
      rw [hpre, hin]
      exact (Function.update_self _ _ _).trans hprop
    have hnode : (s.step (.propose i command)).1.node = Function.update s.node i (s.node i) :=
      congrArg (Function.update s.node i) hprop
    rw [recordLeader_eq hn (h.leader i)]
    exact h.update hnode (List.append_nil _).symm (h.backed i) (h.first i) (h.leader i) (by simp)

/-- The leader of a message's term has had a log. -/
theorem Matched.sent_ne (h : Matched tr own s) {dst : ν} {args : AppendEntriesArgs ν γ}
    (hm : .appendEntries dst args ∈ s.messages) : own args.term ≠ [] := by
  intro hnil
  simpa [hnil] using (h.sent dst args hm).1

/-- Where the entries of a message are in the leader's log. -/
theorem Matched.sent_entry (h : Matched tr own s) {dst : ν} {args : AppendEntriesArgs ν γ}
    (hm : .appendEntries dst args ∈ s.messages) {k : ℕ} {x : LogEntry γ}
    (hx : args.entries[k]? = some x) : (own args.term)[args.prevLogIndex + 1 + k]? = some x := by
  rw [← List.getElem?_drop]
  exact getElem?_of_isPrefix (h.sent dst args hm).2 hx

/-- The log of a follower that accepts a message. -/
theorem Matched.appendLog (h : Matched tr own s) {dst : ν} {args : AppendEntriesArgs ν γ}
    (hm : .appendEntries dst args ∈ s.messages) {prev : LogEntry γ}
    (hprev : (s.node dst).log[args.prevLogIndex]? = some prev)
    (heq : prev.term = args.prevLogTerm) :
    (args.entries.foldl appendEntry (s.node dst).log = (s.node dst).log ∧
        (s.node dst).log.take (args.prevLogIndex + 1 + args.entries.length) =
          (own args.term).take (args.prevLogIndex + 1 + args.entries.length) ∧
        args.prevLogIndex + args.entries.length < (s.node dst).log.length) ∨
      args.entries.foldl appendEntry (s.node dst).log =
        (own args.term).take (args.prevLogIndex + 1 + args.entries.length) := by
  obtain ⟨hterm, hrun⟩ := h.sent dst args hm
  obtain ⟨y, hy, hyt⟩ := Option.map_eq_some_iff.mp hterm
  have hagree := (h.backed dst).agree (h.origins args.term) hprev hy (heq.trans hyt.symm)
  exact foldl_appendEntry (h.origins args.term) (h.index args.term) (h.backed dst)
    (List.getElem?_eq_some_iff.mp hprev).1 hagree hrun

/-- A mismatch is never at the dummy entry. -/
theorem Matched.mismatch_pos (h : Matched tr own s) {dst : ν} {args : AppendEntriesArgs ν γ}
    (hm : .appendEntries dst args ∈ s.messages) {prev : LogEntry γ}
    (hprev : (s.node dst).log[args.prevLogIndex]? = some prev)
    (hne : prev.term ≠ args.prevLogTerm) : 0 < args.prevLogIndex := by
  obtain ⟨hterm, -⟩ := h.sent dst args hm
  obtain ⟨y, hy, hyt⟩ := Option.map_eq_some_iff.mp hterm
  refine Nat.pos_of_ne_zero fun h0 => hne ?_
  have hfirst := h.ownFirst args.term (fun hnil => by simp [hnil] at hy)
  rw [h0] at hprev hy
  rw [h.first dst] at hprev
  rw [hfirst] at hy
  rw [← hyt, ← Option.some.inj hprev, ← Option.some.inj hy]

theorem Matched.outcome (h : Matched tr own s) {dst : ν} {args : AppendEntriesArgs ν γ}
    (hm : .appendEntries dst args ∈ s.messages)
    {r : RaftNode ν γ × AppendEntriesReply × List (ℕ × LogEntry γ)}
    (hout : (s.node dst).AppendOutcome args r) :
    Backed LogEntry.term own r.1.log ∧ r.1.log[0]? = some (dummyEntry γ) := by
  cases hout with
  | stale hlt => exact ⟨h.backed dst, h.first dst⟩
  | missing hle n₁ hn₁ hprev =>
    subst hn₁
    rw [acceptLeader_log]
    exact ⟨h.backed dst, h.first dst⟩
  | mismatch hle n₁ hn₁ prev hprev hne =>
    subst hn₁
    rw [acceptLeader_log] at hprev
    have hpos := h.mismatch_pos hm hprev hne
    simp only [acceptLeader_log]
    exact ⟨(h.backed dst).take _, (List.getElem?_take_of_lt hpos).trans (h.first dst)⟩
  | appended hle n₁ hn₁ prev hprev heq r hr =>
    subst hn₁
    obtain ⟨c, a, hadv⟩ := advanceCommit_eq { (s.node dst).acceptLeader args.term with
      log := args.entries.foldl appendEntry ((s.node dst).acceptLeader args.term).log }
      args.leaderCommit
    rw [← hr] at hadv
    rw [acceptLeader_log] at hprev hadv
    simp only [hadv]
    rcases h.appendLog hm hprev heq with ⟨hsame, -, -⟩ | htake
    · rw [hsame]
      exact ⟨h.backed dst, h.first dst⟩
    · obtain ⟨hterm, -⟩ := h.sent dst args hm
      obtain ⟨y, hy, -⟩ := Option.map_eq_some_iff.mp hterm
      have hfirst := h.ownFirst args.term (fun hnil => by simp [hnil] at hy)
      rw [htake]
      exact ⟨(h.origins _).take _, (List.getElem?_take_of_lt (by omega)).trans hfirst⟩

theorem voteOutcome_log {n : RaftNode ν γ} {args : RequestVoteArgs ν}
    {r : RaftNode ν γ × Option RequestVoteReply} (h : n.VoteOutcome args r) :
    r.1.log = n.log ∧
      (r.1.state = .leader → n.state = .leader ∧ r.1.currentTerm = n.currentTerm) := by
  have hobserve : (n.observeTerm args.term).state = .leader →
      n.state = .leader ∧ (n.observeTerm args.term).currentTerm = n.currentTerm := by
    rcases n.observeTerm_eq_or args.term with ⟨heq, -⟩ | ⟨heq, -⟩ <;> rw [heq]
    · intro hst
      cases hst
    · exact fun hst => ⟨hst, rfl⟩
  cases h with
  | stale hlt => exact ⟨rfl, fun hst => ⟨hst, rfl⟩⟩
  | denied hle reply hno => exact ⟨n.observeTerm_log _, hobserve⟩
  | granted hle n₁ hn₁ last hlast hup hvote =>
    subst hn₁
    exact ⟨n.observeTerm_log _, hobserve⟩

/-- A leader after any step but a promotion or a proposal was the leader before, with its log. -/
theorem System.step_leader {a : Action ν γ} (hpromote : ∀ i, a ≠ .promote i)
    (hpropose : ∀ i command, a ≠ .propose i command)
    (hst : ((s.step a).1.node a.actor).state = .leader) :
    (s.node a.actor).state = .leader ∧
      ((s.step a).1.node a.actor).currentTerm = (s.node a.actor).currentTerm ∧
      ((s.step a).1.node a.actor).log = (s.node a.actor).log := by
  have hself : ∀ {n ms}, (s.step a).1 = (s.setNode a.actor n).send ms →
      (s.step a).1.node a.actor = n := by
    intro n ms hstep
    rw [hstep]
    exact Function.update_self _ _ _
  cases a with
  | startElection i =>
    rw [hself rfl] at hst
    cases hst
  | promote i => exact absurd rfl (hpromote i)
  | propose i command => exact absurd rfl (hpropose i command)
  | sendAppend i dst args => exact ⟨hst, rfl, rfl⟩
  | deliverVoteRequest dst args =>
    rw [hself rfl] at hst ⊢
    obtain ⟨hlog, hlead⟩ := voteOutcome_log ((s.node dst).handleRequestVote_outcome args)
    exact ⟨(hlead hst).1, (hlead hst).2, hlog⟩
  | deliverAppend dst args =>
    rw [hself rfl] at hst ⊢
    -- an accepted message leaves a follower
    obtain ⟨-, -, ⟨hsame, -⟩ | ⟨-, -, hfollower, -⟩⟩ :=
      appendOutcome_votes ((s.node dst).handleAppendEntries_outcome args)
    · rw [hsame] at hst ⊢
      exact ⟨hst, rfl, rfl⟩
    · rw [hfollower] at hst
      cases hst
  | storeMatch i src reply =>
    have hn : (s.step (.storeMatch i src reply)).1.node i =
        { s.node i with matchIndex := (s.node i).matchIndex.set src reply.matchIndex } :=
      Function.update_self _ _ _
    rw [Action.actor, hn] at hst ⊢
    exact ⟨hst, rfl, rfl⟩
  | updateCommit i =>
    obtain ⟨c, a, heq⟩ := updateLeaderCommit_eq (s.node i)
    have hn : (s.step (.updateCommit i)).1.node i = (s.node i).updateLeaderCommit.1 :=
      Function.update_self _ _ _
    rw [Action.actor, hn, heq] at hst ⊢
    exact ⟨hst, rfl, rfl⟩

/-- Only a promotion or a proposal changes the leaders' logs. -/
theorem Matched.steady (h : Matched tr own s) {a : Action ν γ} (hpre : e.pre = s)
    (hin : e.input = a) (hpromote : ∀ i, a ≠ .promote i)
    (hpropose : ∀ i command, a ≠ .propose i command) : recordLeader own e = own := by
  subst hpre hin
  refine recordLeader_eq rfl fun hst => ?_
  obtain ⟨hold, hterm, hlog⟩ := System.step_leader hpromote hpropose hst
  rw [hterm, hlog]
  exact h.leader _ hold

theorem Matched.step (h : Matched tr own s) (hel : Elected C tr s) {a : Action ν γ}
    (hen : s.enabled C rule a) (hrule : ∀ n args, rule n args → fromLog n args)
    (hpre : e.pre = s) (hin : e.input = a) :
    Matched (tr ++ [e]) (recordLeader own e) (s.step a).1 := by
  -- a leader's log that does not change stays on record
  have hlead : ∀ {n ms}, (∀ i, a ≠ .promote i) → (∀ i command, a ≠ .propose i command) →
      (s.step a).1 = (s.setNode a.actor n).send ms → n.state = .leader →
        own n.currentTerm = n.log := by
    intro n ms hpromote hpropose hstep hst
    have hself : (s.step a).1.node a.actor = n := by
      rw [hstep]
      exact Function.update_self _ _ _
    rw [← hself] at hst ⊢
    obtain ⟨hold, hterm, hlog⟩ := System.step_leader hpromote hpropose hst
    rw [hterm, hlog]
    exact h.leader _ hold
  have hsteady := h.steady hpre hin
  cases a with
  | startElection i =>
    rw [hsteady (by simp) (by simp)]
    refine h.update rfl rfl (h.backed i) (h.first i) (fun hst => by cases hst) ?_
    intro dst args hm
    simp at hm
  | promote i => exact h.promote hel hen.1 hen.2.1 hen.2.2 hpre hin
  | propose i command => exact h.propose hpre hin (hel.step hen hpre hin)
  | sendAppend i dst args =>
    obtain ⟨-, -, hst, hterm, -, hargs⟩ := hen
    obtain ⟨hprev, hrun⟩ := hrule _ _ hargs
    rw [hsteady (by simp) (by simp)]
    refine h.update (Function.update_eq_self i _).symm rfl (h.backed i) (h.first i) (h.leader i) ?_
    intro dst' args' hm
    obtain ⟨rfl, rfl⟩ : dst' = dst ∧ args' = args := by simpa using hm
    rw [hterm, h.leader i hst]
    exact ⟨hprev, hrun⟩
  | deliverVoteRequest dst args =>
    obtain ⟨hlog, -⟩ := voteOutcome_log ((s.node dst).handleRequestVote_outcome args)
    rw [hsteady (by simp) (by simp)]
    refine h.update rfl rfl (hlog ▸ h.backed dst) (hlog ▸ h.first dst)
      (hlead (by simp) (by simp) rfl) ?_
    intro dst' args' hm
    simp at hm
  | deliverAppend dst args =>
    obtain ⟨hback, hfirst⟩ := h.outcome hen ((s.node dst).handleAppendEntries_outcome args)
    rw [hsteady (by simp) (by simp)]
    exact h.update rfl rfl hback hfirst (hlead (by simp) (by simp) rfl) (by simp)
  | storeMatch i src reply =>
    rw [hsteady (by simp) (by simp)]
    exact h.update rfl (List.append_nil _).symm (h.backed i) (h.first i) (h.leader i) (by simp)
  | updateCommit i =>
    obtain ⟨c, a, heq⟩ := updateLeaderCommit_eq (s.node i)
    rw [hsteady (by simp) (by simp)]
    refine h.update rfl (List.append_nil _).symm (heq ▸ h.backed i) (heq ▸ h.first i) ?_ (by simp)
    rw [heq]
    exact h.leader i

theorem matched_of_run (hrule : ∀ n args, rule n args → fromLog n args)
    (h : (machine C rule).Run tr s) : Matched tr (leaderLogs tr) s := by
  induction h with
  | nil => exact matched_init C
  | snoc a hr hen ih =>
    rw [leaderLogs_snoc]
    exact ih.step (elected_of_run hr) hen hrule rfl rfl

/-- Every entry is where its index says, and entries of one index and term have equal logs up to
them. -/
structure LogMatching (s : System ν γ) : Prop where
  index : ∀ (i : ν) (k : ℕ) (x : LogEntry γ), (s.node i).log[k]? = some x → x.index = k
  agree : ∀ i j, ∀ x ∈ (s.node i).log, ∀ y ∈ (s.node j).log, x.index = y.index → x.term = y.term →
    (s.node i).log.take (x.index + 1) = (s.node j).log.take (x.index + 1)

theorem Matched.logMatching (h : Matched tr own s) : LogMatching s where
  index i k x hx := h.entry_index hx
  agree i j x hx y hy hindex hterm := by
    obtain ⟨k, hk⟩ := List.mem_iff_getElem?.mp hx
    obtain ⟨l, hl⟩ := List.mem_iff_getElem?.mp hy
    have hkl : l = k := by rw [← h.entry_index hl, ← h.entry_index hk, hindex]
    rw [h.entry_index hk]
    exact (h.backed i).agree (h.backed j) hk (hkl ▸ hl) hterm

theorem logMatching_of_reachable (h : (machine C (fromLog : AppendRule ν γ)).Reachable s) :
    LogMatching s := by
  obtain ⟨tr, hr⟩ := h
  exact (matched_of_run (fun _ _ hargs => hargs) hr).logMatching

/-- Node 0 leads term 1 and replicates an entry to node 2 only; node 1 leads term 2 and overwrites
it. -/
def overwrittenEntry : List (Action ℕ ℕ) :=
  [.startElection 0, .deliverVoteRequest 2 ⟨1, 0, 0, 0⟩, .promote 0, .propose 0 (some 7),
    .sendAppend 0 2 ⟨1, 0, 0, 0, [⟨1, 1, some 7⟩], 0⟩, .startElection 1, .startElection 1,
    .deliverVoteRequest 0 ⟨2, 1, 0, 0⟩]

theorem logMatching_overwrittenEntry : LogMatching
    ((machine threeNodes fromLog).exec (System.init threeNodes) overwrittenEntry) :=
  logMatching_of_reachable (Machine.reachable_of_legal (by decide))

end PySQL.Raft
