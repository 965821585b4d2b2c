import PySQL.Raft.Cluster

/-!
# Election safety

A node may support two candidates of one term: itself, and, once a leader's message has cleared its
vote, one other.  It grants its vote to at most one other node, though, and the first leader of a
term keeps its own vote, because no message of another leader of that term can reach it.
-/

namespace PySQL.Raft

open Lib RaftNode

set_option linter.unusedSectionVars false

variable {ν γ : Type*} [DecidableEq ν] [DecidableEq γ]

/-- `v` has replied to `c` that it grants its vote in term `t`. -/
def Granted (s : System ν γ) (v c : ν) (t : ℕ) : Prop :=
  .voteReply v c { term := t, voteGranted := true } ∈ s.messages

/-- `i` was promoted in term `t`. -/
def Won (tr : History ν γ) (i : ν) (t : ℕ) : Prop :=
  ∃ e ∈ tr, e.input = .promote i ∧ (e.pre.node i).currentTerm = t

def Leads (s : System ν γ) (i : ν) (t : ℕ) : Prop :=
  (s.node i).state = .leader ∧ (s.node i).currentTerm = t

theorem won_snoc {tr : History ν γ} {e : Step ν γ} {i : ν} {t : ℕ} :
    Won (tr ++ [e]) i t ↔ Won tr i t ∨ e.input = .promote i ∧ (e.pre.node i).currentTerm = t := by
  simp [Won, or_and_right, exists_or]

/-- Votes and leaders of a run. -/
structure Elected (C : Cluster ν) (tr : History ν γ) (s : System ν γ) : Prop where
  id : ∀ i, (s.node i).nodeId = i ∧ (s.node i).peers = C.peers i
  own : ∀ i, (s.node i).state ≠ .follower →
    (s.node i).votedFor = some i ∧ 0 < (s.node i).currentTerm
  granted : ∀ v c t, Granted s v c t → v ≠ c ∧ t ≤ (s.node v).currentTerm ∧
    ((s.node v).currentTerm = t → (s.node v).state = .follower ∧ (s.node v).votedFor = some c)
  once : ∀ v c c' t, Granted s v c t → Granted s v c' t → c = c'
  requested : ∀ dst args, .requestVote dst args ∈ s.messages → dst ≠ args.candidateId
  quorum : ∀ i t, Won tr i t → ∃ q, IsQuorum C.members q ∧ ∀ v ∈ q, v = i ∨ Granted s v i t
  won : ∀ i t, Won tr i t → t ≤ (s.node i).currentTerm ∧
    ((s.node i).currentTerm = t → (s.node i).state = .leader)
  loyal : ∀ i t, Won tr i t → ∀ c, ¬ Granted s i c t
  unique : ∀ i j t, Won tr i t → Won tr j t → i = j
  sent : ∀ dst args, .appendEntries dst args ∈ s.messages →
    Won tr args.leaderId args.term ∧ dst ≠ args.leaderId
  leads : ∀ i, (s.node i).state = .leader → Won tr i (s.node i).currentTerm

theorem elected_init (C : Cluster ν) : Elected C ([] : History ν γ) (System.init C) where
  id i := ⟨rfl, rfl⟩
  own i h := absurd rfl h
  granted v c t h := by simp [Granted, System.init] at h
  once v c c' t h := by simp [Granted, System.init] at h
  requested dst args h := by simp [System.init] at h
  quorum i t h := by simp [Won] at h
  won i t h := by simp [Won] at h
  loyal i t h := by simp [Won] at h
  unique i j t h := by simp [Won] at h
  sent dst args h := by simp [System.init] at h
  leads i h := by simp [System.init] at h

variable {C : Cluster ν} {rule : AppendRule ν γ} {tr : History ν γ} {s s' : System ν γ}

/-- A step that promotes no one: one node changes and messages are added. -/
theorem Elected.update (h : Elected C tr s) {e : Step ν γ} (he : ∀ i, e.input ≠ .promote i) {i : ν}
    {n : RaftNode ν γ} {ms : List (Message ν γ)} (hnode : s'.node = Function.update s.node i n)
    (hms : s'.messages = s.messages ++ ms) (hid : n.nodeId = i ∧ n.peers = C.peers i)
    (hown : n.state ≠ .follower → n.votedFor = some i ∧ 0 < n.currentTerm)
    (hterm : (s.node i).currentTerm ≤ n.currentTerm)
    (hvote : n.currentTerm = (s.node i).currentTerm → ∀ c, (s.node i).state = .follower →
      (s.node i).votedFor = some c → n.state = .follower ∧ n.votedFor = some c)
    (hlead : n.currentTerm = (s.node i).currentTerm → (s.node i).state = .leader →
      n.state = .leader)
    (hleads : n.state = .leader → (s.node i).state = .leader ∧
      n.currentTerm = (s.node i).currentTerm)
    (hgrant : ∀ v c t, .voteReply v c { term := t, voteGranted := true } ∈ ms → v = i ∧ i ≠ c ∧
      t = n.currentTerm ∧ n.state = .follower ∧ n.votedFor = some c ∧
      ((s.node i).currentTerm = t → (s.node i).state = .follower ∧
        ((s.node i).votedFor = none ∨ (s.node i).votedFor = some c)))
    (hreq : ∀ dst args, .requestVote dst args ∈ ms → dst ≠ args.candidateId)
    (happ : ∀ dst args, .appendEntries dst args ∈ ms →
      Won tr args.leaderId args.term ∧ dst ≠ args.leaderId) :
    Elected C (tr ++ [e]) s' := by
  have hwon : ∀ j t, Won (tr ++ [e]) j t ↔ Won tr j t := by
    intro j t
    rw [won_snoc, or_iff_left]
    exact fun hp => he j hp.1
  have hself : s'.node i = n := by rw [hnode, Function.update_self]
  have hother : ∀ j, j ≠ i → s'.node j = s.node j := fun j hj => by
    rw [hnode, Function.update_of_ne hj]
  have hgranted : ∀ v c t, Granted s' v c t ↔ Granted s v c t ∨
      .voteReply v c { term := t, voteGranted := true } ∈ ms := by
    intro v c t
    rw [Granted, hms, List.mem_append]
    rfl
  -- a vote cast earlier in the term the node is in now was cast in the term it was in before
  have hprior : ∀ c, Granted s i c n.currentTerm → n.currentTerm = (s.node i).currentTerm := fun c hg =>
    le_antisymm (h.granted i c _ hg).2.1 hterm
  refine ⟨?_, ?_, ?_, ?_, ?_, ?_, ?_, ?_, ?_, ?_, ?_⟩
  · intro j
    by_cases hj : j = i
    · rw [hj, hself]
      exact hid
    · rw [hother j hj]
      exact h.id j
  · intro j hst
    by_cases hj : j = i
    · rw [hj, hself] at hst ⊢
      exact hown hst
    · rw [hother j hj] at hst ⊢
      exact h.own j hst
  · intro v c t hg
    rcases (hgranted v c t).mp hg with hg | hg
    · obtain ⟨hne, hle, hnow⟩ := h.granted v c t hg
      refine ⟨hne, ?_⟩
      by_cases hv : v = i
      · subst hv
        rw [hself]
        refine ⟨hle.trans hterm, ?_⟩
        rintro rfl
        have heq := hprior c hg
        obtain ⟨hst, hvoted⟩ := hnow heq.symm
        exact hvote heq c hst hvoted
      · rw [hother v hv]
        exact ⟨hle, hnow⟩
    · obtain ⟨rfl, hne, rfl, hst, hvoted, -⟩ := hgrant v c t hg
      rw [hself]
      exact ⟨hne, le_rfl, fun _ => ⟨hst, hvoted⟩⟩
  · intro v c c' t hg hg'
    have hmix : ∀ c c', Granted s v c t →
        .voteReply v c' { term := t, voteGranted := true } ∈ ms → c = c' := by
      intro c c' hold hnew
      obtain ⟨rfl, -, rfl, -, -, hwas⟩ := hgrant v c' t hnew
      have heq := (hprior c hold).symm
      have hvoted := ((h.granted _ c _ hold).2.2 heq).2
      rcases (hwas heq).2 with hnone | hsome
      · rw [hnone] at hvoted
        cases hvoted
      · exact Option.some.inj (hvoted.symm.trans hsome)
    rcases (hgranted v c t).mp hg with hg | hg <;> rcases (hgranted v c' t).mp hg' with hg' | hg'
    · exact h.once v c c' t hg hg'
    · exact hmix c c' hg hg'
    · exact (hmix c' c hg' hg).symm
    · obtain ⟨-, -, -, -, hvoted, -⟩ := hgrant v c t hg
      obtain ⟨-, -, -, -, hvoted', -⟩ := hgrant v c' t hg'
      exact Option.some.inj (hvoted.symm.trans hvoted')
  · intro dst args hm
    rw [hms, List.mem_append] at hm
    exact hm.elim (h.requested dst args) (hreq dst args)
  · intro j t hw
    obtain ⟨q, hq, hall⟩ := h.quorum j t ((hwon j t).mp hw)
    exact ⟨q, hq, fun v hv => (hall v hv).imp_right fun hg => (hgranted v j t).mpr (.inl hg)⟩
  · intro j t hw
    obtain ⟨hle, hnow⟩ := h.won j t ((hwon j t).mp hw)
    by_cases hj : j = i
    · subst hj
      rw [hself]
      refine ⟨hle.trans hterm, ?_⟩
      rintro rfl
      have heq := le_antisymm hle hterm
      exact hlead heq (hnow heq.symm)
    · rw [hother j hj]
      exact ⟨hle, hnow⟩
  · intro j t hw c hg
    have hw' := (hwon j t).mp hw
    rcases (hgranted j c t).mp hg with hg | hg
    · exact h.loyal j t hw' c hg
    · obtain ⟨rfl, -, rfl, -, -, hwas⟩ := hgrant j c t hg
      have heq := le_antisymm (h.won _ _ hw').1 hterm
      have hlead := (h.won _ _ hw').2 heq.symm
      rw [(hwas heq.symm).1] at hlead
      cases hlead
  · intro j k t hj hk
    exact h.unique j k t ((hwon j t).mp hj) ((hwon k t).mp hk)
  · intro dst args hm
    rw [hms, List.mem_append] at hm
    rw [hwon]
    exact hm.elim (h.sent dst args) (happ dst args)
  · intro j hst
    rw [hwon]
    by_cases hj : j = i
    · subst hj
      rw [hself] at hst ⊢
      obtain ⟨hold, heq⟩ := hleads hst
      rw [heq]
      exact h.leads j hold
    · rw [hother j hj] at hst ⊢
      exact h.leads j hst

/-- A node and those of its peers that are counted make a quorum. -/
theorem Elected.quorum_peers (h : Elected C tr s) {i : ν} (hi : i ∈ C.members) (f : ν → Bool)
    (hmaj : (s.node i).majority ≤ 1 + ((s.node i).peers.filter f).length) :
    IsQuorum C.members (i :: (s.node i).peers.filter f) := by
  have hperm := C.others i hi
  have hpeers := (h.id i).2
  have hnd : (C.peers i).Nodup := hperm.nodup_iff.mpr (C.nodup.erase i)
  have hsub : (s.node i).peers.filter f ⊆ C.members.erase i := fun v hv => by
    have hv' := List.mem_of_mem_filter hv
    rw [hpeers] at hv'
    exact hperm.mem_iff.mp hv'
  refine ⟨List.nodup_cons.mpr ⟨fun hmem => ?_, ?_⟩, ?_, ?_⟩
  · exact (C.nodup.mem_erase_iff.mp (hsub hmem)).1 rfl
  · rw [hpeers]
    exact hnd.filter _
  · exact List.cons_subset.mpr ⟨hi, fun v hv => List.mem_of_mem_erase (hsub hv)⟩
  · have hlen := hperm.length_eq
    rw [List.length_erase_of_mem hi] at hlen
    have hpos := List.length_pos_of_mem hi
    rw [RaftNode.majority, hpeers, hlen] at hmaj
    rw [List.length_cons, hpeers]
    omega

/-- The votes counted by the driver make a quorum with the candidate's own. -/
theorem Elected.quorum_granters (h : Elected C tr s) {i : ν} (hi : i ∈ C.members)
    (hmaj : (s.node i).majority ≤ 1 + (s.granters i).length) :
    IsQuorum C.members (i :: s.granters i) :=
  h.quorum_peers hi _ hmaj

/-- Whoever has won the term of a candidate with a quorum is that candidate. -/
theorem Elected.unique_of_quorum (h : Elected C tr s) {i j : ν} (hst : (s.node i).state = .candidate)
    {q : List ν} (hq : IsQuorum C.members q)
    (hall : ∀ v ∈ q, v = i ∨ Granted s v i (s.node i).currentTerm)
    (hw : Won tr j (s.node i).currentTerm) : j = i := by
  have hloyal : ∀ c, ¬ Granted s i c (s.node i).currentTerm := fun c hg => by
    rw [((h.granted i c _ hg).2.2 rfl).1] at hst
    cases hst
  obtain ⟨q', hq', hall'⟩ := h.quorum j _ hw
  obtain ⟨v, hv, hv'⟩ := hq.inter hq'
  rcases hall v hv with rfl | hg <;> rcases hall' v hv' with rfl | hg'
  · rfl
  · exact absurd hg' (hloyal j)
  · exact absurd hg (h.loyal _ _ hw i)
  · exact h.once v j i _ hg' hg

theorem Elected.promote (h : Elected C tr s) {i : ν} (hi : i ∈ C.members)
    (hst : (s.node i).state = .candidate)
    (hmaj : (s.node i).majority ≤ 1 + (s.granters i).length) {e : Step ν γ}
    (hpre : e.pre = s) (hin : e.input = .promote i) :
    Elected C (tr ++ [e]) (s.step (.promote i)).1 := by
  have hwon : ∀ j t, Won (tr ++ [e]) j t ↔ Won tr j t ∨ j = i ∧ t = (s.node i).currentTerm := by
    intro j t
    rw [won_snoc, hin, hpre, Action.promote.injEq]
    refine or_congr_right ⟨?_, ?_⟩ <;> rintro ⟨rfl, rfl⟩ <;> exact ⟨rfl, rfl⟩
  have hq := h.quorum_granters hi hmaj
  have hall : ∀ v ∈ i :: s.granters i, v = i ∨ Granted s v i (s.node i).currentTerm := fun v hv =>
    (List.mem_cons.mp hv).imp_right fun hv => by
      simpa [Granted] using (List.mem_filter.mp hv).2
  have hself : (s.step (.promote i)).1.node i = (s.node i).promoteToLeader :=
    Function.update_self _ _ _
  have hother : ∀ j, j ≠ i → (s.step (.promote i)).1.node j = s.node j := fun j hj =>
    Function.update_of_ne hj _ _
  have hterm : ∀ j, ((s.step (.promote i)).1.node j).currentTerm = (s.node j).currentTerm := by
    intro j
    by_cases hj : j = i
    · rw [hj, hself]
      rfl
    · rw [hother j hj]
  refine ⟨?_, ?_, ?_, h.once, h.requested, ?_, ?_, ?_, ?_, ?_, ?_⟩
  · intro j
    by_cases hj : j = i
    · rw [hj, hself]
      exact h.id i
    · rw [hother j hj]
      exact h.id j
  · intro j hst'
    by_cases hj : j = i
    · rw [hj, hself]
      exact h.own i (by simp [hst])
    · rw [hother j hj] at hst' ⊢
      exact h.own j hst'
  · intro v c t hg
    obtain ⟨hne, hle, hnow⟩ := h.granted v c t hg
    refine ⟨hne, (hterm v).symm ▸ hle, fun ht => ?_⟩
    rw [hterm] at ht
    by_cases hv : v = i
    · subst hv
      have hfollower := (hnow ht).1
      rw [hst] at hfollower
      cases hfollower
    · rw [hother v hv]
      exact hnow ht
  · intro j t hw
    rcases (hwon j t).mp hw with hw | ⟨rfl, rfl⟩
    · exact h.quorum j t hw
    · exact ⟨_, hq, hall⟩
  · intro j t hw
    rw [hterm]
    rcases (hwon j t).mp hw with hw | ⟨rfl, rfl⟩
    · refine ⟨(h.won j t hw).1, fun ht => ?_⟩
      by_cases hj : j = i
      · rw [hj, hself]
        rfl
      · rw [hother j hj]
        exact (h.won j t hw).2 ht
    · rw [hself]
      exact ⟨le_rfl, fun _ => rfl⟩
  · intro j t hw c hg
    rcases (hwon j t).mp hw with hw | ⟨rfl, rfl⟩
    · exact h.loyal j t hw c hg
    · have hfollower := ((h.granted j c _ hg).2.2 rfl).1
      rw [hst] at hfollower
      cases hfollower
  · intro j k t hj hk
    rcases (hwon j t).mp hj with hj | ⟨hj, ht⟩ <;> rcases (hwon k t).mp hk with hk | ⟨hk, ht'⟩
    · exact h.unique j k t hj hk
    · rw [ht'] at hj
      rw [hk, h.unique_of_quorum hst hq hall hj]
    · rw [ht] at hk
      rw [hj, h.unique_of_quorum hst hq hall hk]
    · rw [hj, hk]
  · intro dst args hm
    exact (h.sent dst args hm).imp_left fun hw => (hwon _ _).mpr (.inl hw)
  · intro j hst'
    rw [hwon, hterm]
    by_cases hj : j = i
    · exact .inr ⟨hj, by rw [hj]⟩
    · rw [hother j hj] at hst'
      exact .inl (h.leads j hst')

/-- The driver's own bookkeeping and the log of a leader do not concern votes. -/
theorem Elected.sameVotes (h : Elected C tr s) {e : Step ν γ} (he : ∀ i, e.input ≠ .promote i) {i : ν}
    {n : RaftNode ν γ} {ms : List (Message ν γ)} (hnode : s'.node = Function.update s.node i n)
    (hms : s'.messages = s.messages ++ ms)
    (hid : n.nodeId = (s.node i).nodeId ∧ n.peers = (s.node i).peers)
    (hst : n.state = (s.node i).state) (hterm : n.currentTerm = (s.node i).currentTerm)
    (hvote : n.votedFor = (s.node i).votedFor)
    (hquiet : ∀ m ∈ ms, ∃ dst args, m = .appendEntries dst args ∧ Won tr args.leaderId args.term ∧
      dst ≠ args.leaderId) : Elected C (tr ++ [e]) s' := by
  refine h.update he hnode hms (by rw [hid.1, hid.2]; exact h.id i) ?_ hterm.ge ?_ ?_ ?_ ?_ ?_ ?_
  · rw [hst, hvote, hterm]
    exact h.own i
  · rw [hst, hvote]
    exact fun _ c hf hv => ⟨hf, hv⟩
  · rw [hst]
    exact fun _ hl => hl
  · rw [hst]
    exact fun hl => ⟨hl, hterm⟩
  · intro v c t hm
    obtain ⟨dst, args, heq, -⟩ := hquiet _ hm
    cases heq
  · intro dst args hm
    obtain ⟨dst', args', heq, -⟩ := hquiet _ hm
    cases heq
  · intro dst args hm
    obtain ⟨dst', args', heq, hw⟩ := hquiet _ hm
    cases heq
    exact hw

theorem Elected.peer_ne (h : Elected C tr s) {i dst : ν} (hi : i ∈ C.members)
    (hdst : dst ∈ (s.node i).peers) : dst ≠ i := by
  rw [(h.id i).2, (C.others i hi).mem_iff, C.nodup.mem_erase_iff] at hdst
  exact hdst.1

theorem Elected.startElection (h : Elected C tr s) {i : ν} (hi : i ∈ C.members) {e : Step ν γ}
    (he : ∀ i, e.input ≠ .promote i) : Elected C (tr ++ [e]) (s.step (.startElection i)).1 := by
  refine h.update he rfl rfl ⟨(h.id i).1, (h.id i).2⟩ ?_ (Nat.le_succ _) ?_ ?_ ?_ ?_ ?_ ?_
  · intro _
    refine ⟨?_, Nat.succ_pos _⟩
    change some (s.node i).nodeId = some i
    rw [(h.id i).1]
  · intro heq
    exact absurd heq (Nat.succ_ne_self _)
  · intro heq
    exact absurd heq (Nat.succ_ne_self _)
  · intro hst
    cases hst
  · intro v c t hm
    simp at hm
  · intro dst args hm
    obtain ⟨p, hp, heq⟩ := List.mem_map.mp hm
    cases hlast : (s.node i).log.getLast? with
    | none => simp [RaftNode.startElection, hlast] at hp
    | some last =>
      simp only [RaftNode.startElection, hlast, Option.map_some, Option.getD_some, List.mem_map] at hp
      obtain ⟨peer, hpeer, rfl⟩ := hp
      cases heq
      exact fun hid => h.peer_ne hi hpeer (hid.trans (h.id i).1)
  · intro dst args hm
    simp at hm

theorem Elected.deliverVoteRequest (h : Elected C tr s) {dst : ν} {args : RequestVoteArgs ν}
    (hm : .requestVote dst args ∈ s.messages) {e : Step ν γ} (he : ∀ i, e.input ≠ .promote i) :
    Elected C (tr ++ [e]) (s.step (.deliverVoteRequest dst args)).1 := by
  have hne := h.requested dst args hm
  have hown := h.own dst
  have hout := (s.node dst).handleRequestVote_outcome args
  simp only [System.step]
  generalize (s.node dst).handleRequestVote args = r at hout ⊢
  have hquiet : ∀ {reply : Option RequestVoteReply}, (∀ r ∈ reply, r.voteGranted = false) →
      ∀ v c t, (.voteReply v c { term := t, voteGranted := true } : Message ν γ) ∉
        reply.toList.map (.voteReply dst args.candidateId) := by
    intro reply hno v c t hmem
    obtain ⟨r, hr, heq⟩ := List.mem_map.mp hmem
    cases heq
    simpa using hno _ (Option.mem_toList.mp hr)
  cases hout with
  | stale hlt =>
    refine h.update he rfl rfl (h.id dst) hown le_rfl ?_ ?_ ?_ ?_ ?_ ?_
    · exact fun _ c hf hv => ⟨hf, hv⟩
    · exact fun _ hl => hl
    · exact fun hl => ⟨hl, rfl⟩
    · exact fun v c t hmem => absurd hmem (hquiet (by simp) v c t)
    · simp
    · simp
  | denied hle reply hno =>
    rcases (s.node dst).observeTerm_eq_or args.term with ⟨heq, hlt⟩ | ⟨heq, -⟩
    · rw [heq]
      refine h.update he rfl rfl (h.id dst) (fun hst => absurd rfl hst) hle ?_ ?_ ?_ ?_ ?_ ?_
      · exact fun ht => absurd ht hlt.ne'
      · exact fun ht => absurd ht hlt.ne'
      · exact fun hl => by cases hl
      · exact fun v c t hmem => absurd hmem (hquiet hno v c t)
      · simp
      · simp
    · rw [heq]
      refine h.update he rfl rfl (h.id dst) hown le_rfl ?_ ?_ ?_ ?_ ?_ ?_
      · exact fun _ c hf hv => ⟨hf, hv⟩
      · exact fun _ hl => hl
      · exact fun hl => ⟨hl, rfl⟩
      · exact fun v c t hmem => absurd hmem (hquiet hno v c t)
      · simp
      · simp
  | granted hle n₁ hn₁ last hlast hup hvote =>
    rcases (s.node dst).observeTerm_eq_or args.term with ⟨heq, hlt⟩ | ⟨heq, -⟩
    · rw [heq] at hn₁
      subst hn₁
      refine h.update he rfl rfl (h.id dst) (fun hst => absurd rfl hst) hle ?_ ?_ ?_ ?_ ?_ ?_
      · exact fun ht => absurd ht hlt.ne'
      · exact fun ht => absurd ht hlt.ne'
      · exact fun hl => by cases hl
      · intro v c t hmem
        simp only [Option.toList_some, List.map_cons, List.map_nil, List.mem_singleton,
          Message.voteReply.injEq, RequestVoteReply.mk.injEq] at hmem
        obtain ⟨rfl, rfl, rfl, -⟩ := hmem
        exact ⟨rfl, hne, rfl, rfl, rfl, fun ht => absurd ht hlt.ne⟩
      · simp
      · simp
    · rw [heq] at hn₁
      subst hn₁
      -- a node that is not a follower has voted for itself
      have hst : (s.node dst).state = .follower := by
        by_contra hst
        rw [(hown hst).1] at hvote
        exact hvote.elim (by simp) fun hself => hne (Option.some.inj hself)
      refine h.update he rfl rfl (h.id dst) (fun hst' => absurd hst hst') le_rfl ?_ ?_ ?_ ?_ ?_ ?_
      · intro _ c _ hv
        rcases hvote with hnone | hsome
        · rw [hv] at hnone
          cases hnone
        · rw [hv] at hsome
          exact ⟨hst, hsome.symm⟩
      · exact fun _ hl => hl
      · exact fun hl => ⟨hl, rfl⟩
      · intro v c t hmem
        simp only [Option.toList_some, List.map_cons, List.map_nil, List.mem_singleton,
          Message.voteReply.injEq, RequestVoteReply.mk.injEq] at hmem
        obtain ⟨rfl, rfl, rfl, -⟩ := hmem
        exact ⟨rfl, hne, rfl, hst, rfl, fun _ => ⟨hst, hvote⟩⟩
      · simp
      · simp

/-- The node after an AppendEntries message, as far as votes are concerned. -/
theorem appendOutcome_votes {n : RaftNode ν γ} {args : AppendEntriesArgs ν γ}
    {r : RaftNode ν γ × AppendEntriesReply × List (ℕ × LogEntry γ)} (h : n.AppendOutcome args r) :
    r.1.nodeId = n.nodeId ∧ r.1.peers = n.peers ∧
      (r.1 = n ∧ args.term < n.currentTerm ∨ n.currentTerm ≤ args.term ∧
        r.1.currentTerm = args.term ∧ r.1.state = .follower ∧
        r.1.votedFor = (n.acceptLeader args.term).votedFor) := by
  cases h with
  | stale hlt => exact ⟨rfl, rfl, .inl ⟨rfl, hlt⟩⟩
  | missing hle n₁ hn₁ hprev =>
    subst hn₁
    exact ⟨(n.acceptLeader_id _).1, (n.acceptLeader_id _).2, .inr ⟨hle, acceptLeader_currentTerm hle,
      n.acceptLeader_state _, rfl⟩⟩
  | mismatch hle n₁ hn₁ prev hprev hne =>
    subst hn₁
    exact ⟨(n.acceptLeader_id _).1, (n.acceptLeader_id _).2, .inr ⟨hle, acceptLeader_currentTerm hle,
      n.acceptLeader_state _, rfl⟩⟩
  | appended hle n₁ hn₁ prev hprev heq r hr =>
    obtain ⟨c, a, hadv⟩ := advanceCommit_eq
      { n₁ with log := args.entries.foldl appendEntry n₁.log } args.leaderCommit
    rw [← hr] at hadv
    simp only [hadv]
    subst hn₁
    exact ⟨(n.acceptLeader_id _).1, (n.acceptLeader_id _).2, .inr ⟨hle, acceptLeader_currentTerm hle,
      n.acceptLeader_state _, rfl⟩⟩

/-- No message of the term's leader reaches that leader, and there is no other leader in its term. -/
theorem Elected.not_leader (h : Elected C tr s) {dst : ν} {args : AppendEntriesArgs ν γ}
    (hm : .appendEntries dst args ∈ s.messages) (ht : (s.node dst).currentTerm = args.term) :
    (s.node dst).state ≠ .leader := by
  intro hst
  obtain ⟨hw, hne⟩ := h.sent dst args hm
  exact hne (h.unique _ _ _ (ht ▸ h.leads dst hst) hw)

theorem Elected.deliverAppend (h : Elected C tr s) {dst : ν} {args : AppendEntriesArgs ν γ}
    (hm : .appendEntries dst args ∈ s.messages) {e : Step ν γ} (he : ∀ i, e.input ≠ .promote i) :
    Elected C (tr ++ [e]) (s.step (.deliverAppend dst args)).1 := by
  have hout := appendOutcome_votes ((s.node dst).handleAppendEntries_outcome args)
  simp only [System.step]
  generalize (s.node dst).handleAppendEntries args = r at hout ⊢
  obtain ⟨hid, hpeers, ⟨hsame, -⟩ | ⟨hle, hterm, hst, hvote⟩⟩ := hout
  · refine h.update he rfl rfl (by rw [hsame]; exact h.id dst) (by rw [hsame]; exact h.own dst)
      (by rw [hsame]) ?_ ?_ ?_ ?_ ?_ ?_
    · exact fun _ c hf hv => by rw [hsame]; exact ⟨hf, hv⟩
    · exact fun _ hl => by rw [hsame]; exact hl
    · exact fun hl => by rw [hsame] at hl ⊢; exact ⟨hl, rfl⟩
    · simp
    · simp
    · simp
  · refine h.update he rfl rfl (by rw [hid, hpeers]; exact h.id dst) (fun hst' => absurd hst hst')
      (hterm ▸ hle) ?_ ?_ ?_ ?_ ?_ ?_
    · intro ht c hf hv
      refine ⟨hst, hvote.trans ?_⟩
      rcases (s.node dst).acceptLeader_eq_or args.term with ⟨-, hlt | hne⟩ | ⟨heq, -⟩
      · omega
      · exact absurd hf hne
      · rw [heq, hv]
    · exact fun ht hl => absurd hl (h.not_leader hm (ht.symm.trans hterm))
    · exact fun hl => by rw [hst] at hl; cases hl
    · simp
    · simp
    · simp

theorem Elected.step (h : Elected C tr s) {a : Action ν γ} (hen : s.enabled C rule a)
    {e : Step ν γ} (hpre : e.pre = s) (hin : e.input = a) : Elected C (tr ++ [e]) (s.step a).1 := by
  have he : (∀ i, a ≠ .promote i) → ∀ i, e.input ≠ .promote i := fun ha => hin ▸ ha
  cases a with
  | startElection i => exact h.startElection hen (he (by simp))
  | promote i => exact h.promote hen.1 hen.2.1 hen.2.2 hpre hin
  | propose i command =>
    refine h.sameVotes (he (by simp)) rfl (List.append_nil _).symm ?_ ?_ ?_ ?_ (by simp) <;>
      · unfold propose
        split <;> simp
  | sendAppend i dst args =>
    obtain ⟨hi, hdst, hst, hterm, hid, -⟩ := hen
    refine h.sameVotes (he (by simp)) (Function.update_eq_self i _).symm rfl ⟨rfl, rfl⟩ rfl rfl rfl ?_
    rintro m hm
    obtain rfl := List.mem_singleton.mp hm
    refine ⟨dst, args, rfl, ?_, ?_⟩
    · rw [hid, hterm]
      exact h.leads i hst
    · rw [hid]
      exact h.peer_ne hi hdst
  | deliverVoteRequest dst args => exact h.deliverVoteRequest hen (he (by simp))
  | deliverAppend dst args => exact h.deliverAppend hen (he (by simp))
  | storeMatch i src reply =>
    exact h.sameVotes (he (by simp)) rfl (List.append_nil _).symm ⟨rfl, rfl⟩ rfl rfl rfl (by simp)
  | updateCommit i =>
    obtain ⟨c, a, heq⟩ := updateLeaderCommit_eq (s.node i)
    refine h.sameVotes (he (by simp)) rfl (List.append_nil _).symm ?_ ?_ ?_ ?_ (by simp) <;> simp [heq]

theorem elected_of_run (h : (machine C rule).Run tr s) : Elected C tr s :=
  h.invariant (elected_init C) fun _ _ _ _ hel hen => hel.step hen rfl rfl

/-- No term ever has two leaders. -/
def ElectionSafety (tr : History ν γ) (s : System ν γ) : Prop :=
  ∀ x y, Machine.Visited tr s x → Machine.Visited tr s y → ∀ i j t, Leads x i t → Leads y j t → i = j

theorem Leads.won (h : (machine C rule).Run tr s) {x : System ν γ} (hx : Machine.Visited tr s x)
    {i : ν} {t : ℕ} (hl : Leads x i t) : Won tr i t := by
  obtain ⟨l, hpre, hr⟩ := h.visited hx
  obtain ⟨hst, rfl⟩ := hl
  obtain ⟨e, he, hin, ht⟩ := (elected_of_run hr).leads i hst
  exact ⟨e, hpre.subset he, hin, ht⟩

theorem electionSafety_of_run (h : (machine C (anyEntries : AppendRule ν γ)).Run tr s) :
    ElectionSafety tr s := fun _ _ hx hy i j t hi hj =>
  (elected_of_run h).unique i j t (hi.won h hx) (hj.won h hy)

/-- Three nodes; node 0 is elected with the vote of node 1, proposes and sends its entry on. -/
def threeNodes : Cluster ℕ := .ofMembers [0, 1, 2] (by decide)

def firstLeader : List (Action ℕ ℕ) :=
  [.startElection 0, .deliverVoteRequest 1 ⟨1, 0, 0, 0⟩, .promote 0, .propose 0 (some 7),
    .sendAppend 0 2 ⟨1, 0, 0, 0, [⟨1, 1, some 7⟩], 0⟩,
    .deliverAppend 2 ⟨1, 0, 0, 0, [⟨1, 1, some 7⟩], 0⟩, .startElection 2]

theorem firstLeader_run : (machine threeNodes anyEntries).Run
    ((machine threeNodes anyEntries).trace (System.init threeNodes) firstLeader)
    ((machine threeNodes anyEntries).exec (System.init threeNodes) firstLeader) :=
  Machine.run_of_legal (by decide)

theorem electionSafety_firstLeader : ElectionSafety
    ((machine threeNodes anyEntries).trace (System.init threeNodes) firstLeader)
    ((machine threeNodes anyEntries).exec (System.init threeNodes) firstLeader) :=
  electionSafety_of_run firstLeader_run

end PySQL.Raft
