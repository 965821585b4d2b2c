import PySQL.Raft.Change

/-!
# Leader completeness

What a quorum has acknowledged of the log of a term, up to an entry of that term, is in the log of
every later leader.  A node that has acknowledged a piece keeps it until a later leader that lacks
it tells it otherwise, and a voter passes on what it has kept, since a candidate is as up to date.
-/

namespace PySQL.Raft

open Lib RaftNode

set_option linter.unusedSectionVars false

variable {ν γ : Type*} [DecidableEq ν] [DecidableEq γ]

/-- `v` has the piece `p` of the log of term `t`: it led that term, or has replied so. -/
def Holds (tr : History ν γ) (own : ℕ → List (LogEntry γ)) (s : System ν γ) (v : ν) (t : ℕ)
    (p : List (LogEntry γ)) : Prop :=
  p <+: own t ∧ (Won tr v t ∨ ∃ l m, p.length ≤ m + 1 ∧
    .appendReply v l { term := t, success := true, matchIndex := m } ∈ s.messages)

/-- What acknowledged pieces, vote requests, votes and leaders tell about the logs of a run. -/
structure Carried (C : Cluster ν) (tr : History ν γ) (own : ℕ → List (LogEntry γ))
    (s : System ν γ) : Prop where
  dated : ∀ t, ∀ x ∈ own t, x.term ≤ t
  logDated : ∀ i, ∀ x ∈ (s.node i).log, x.term ≤ (s.node i).currentTerm
  replied : ∀ v l t m,
    .appendReply v l { term := t, success := true, matchIndex := m } ∈ s.messages →
      m < (own t).length ∧ t ≤ (s.node v).currentTerm
  held : ∀ v t p, Holds tr own s v t p → Kept own p t (s.node v).currentTerm (s.node v).log
  requested : ∀ dst args, .requestVote dst args ∈ s.messages →
    (∃ y, (own args.lastLogTerm)[args.lastLogIndex]? = some y ∧ y.term = args.lastLogTerm) ∧
      args.lastLogTerm < args.term ∧ args.term ≤ (s.node args.candidateId).currentTerm ∧
      ((s.node args.candidateId).state = .candidate →
        (s.node args.candidateId).currentTerm = args.term →
          (s.node args.candidateId).log = (own args.lastLogTerm).take (args.lastLogIndex + 1))
  voted : ∀ v c u, Granted s v c u → ∃ dst args, .requestVote dst args ∈ s.messages ∧
    args.candidateId = c ∧ args.term = u ∧ ∀ t p, t < u → Holds tr own s v t p →
      (∃ x ∈ p, x.term = t) →
        Kept own p t u ((own args.lastLogTerm).take (args.lastLogIndex + 1))
  heir : ∀ u, u ≠ 0 → own u ≠ [] → ∃ q, IsQuorum C.members q ∧ ∀ v ∈ q,
    u ≤ (s.node v).currentTerm ∧ ∀ t p, t < u → Holds tr own s v t p → (∃ x ∈ p, x.term = t) →
      Kept own p t (u - 1) (own u)

theorem carried_init (C : Cluster ν) :
    Carried C ([] : History ν γ) (leaderLogs ([] : History ν γ)) (System.init C) where
  dated t x hx := by
    have ht : t = 0 ∧ x = dummyEntry γ := by
      by_cases ht : t = 0
      · exact ⟨ht, by simpa [leaderLogs, ht] using hx⟩
      · simp [leaderLogs, ht] at hx
    rw [ht.1, ht.2]
    exact le_rfl
  logDated i x hx := by
    obtain rfl : x = dummyEntry γ := by simpa [System.init] using hx
    exact le_rfl
  replied v l t m hm := by simp [System.init] at hm
  held v t p hp := by simp [Holds, Won, System.init] at hp
  requested dst args hm := by simp [System.init] at hm
  voted v c u hg := by simp [Granted, System.init] at hg
  heir u hu hne := by simp [leaderLogs, hu] at hne

section Step

variable {C : Cluster ν} {tr tr' : History ν γ} {s s' : System ν γ}
variable {own own' : ℕ → List (LogEntry γ)} {i : ν} {ms : List (Message ν γ)}

theorem Change.term_le (hc : Change C tr tr' own own' s s' i ms) (v : ν) :
    (s.node v).currentTerm ≤ (s'.node v).currentTerm := by
  by_cases hv : v = i
  · rw [hv]
    exact hc.term
  · rw [hc.other v hv]

/-- What a node comes to hold in a step is in its log, and of its term. -/
theorem Change.holds (hc : Change C tr tr' own own' s s' i ms) (h : Carried C tr own s)
    (hel' : Elected C tr' s') (hm' : Matched tr' own' s') {v : ν} {t : ℕ} {p : List (LogEntry γ)}
    (hp : Holds tr' own' s' v t p) : Holds tr own s v t p ∨
      p <+: (s'.node v).log ∧ t = (s'.node v).currentTerm := by
  obtain ⟨hpre, hwon | ⟨l, m, hlen, hmem⟩⟩ := hp
  · by_cases ht : t = (s'.node v).currentTerm
    · have hlead := hm'.leader v ((hel'.won v t hwon).2 ht.symm)
      rw [← ht] at hlead
      exact .inr ⟨hlead ▸ hpre, ht⟩
    · -- the leader of an earlier term no longer appends to the log of that term
      have hold := (hc.won v t hwon).resolve_right fun ⟨hv, heq⟩ => ht (hv ▸ heq)
      have hsame : own' t = own t := by
        by_contra hne
        obtain ⟨hst, heq⟩ := hc.grown t hne
        have hv := hel'.unique v i t hwon (heq ▸ hel'.leads i hst)
        exact ht (hv ▸ heq)
      exact .inl ⟨hsame ▸ hpre, .inl hold⟩
  · rw [hc.sent, List.mem_append] at hmem
    rcases hmem with hmem | hmem
    · have hlt := (h.replied v l t m hmem).1
      exact .inl ⟨hc.grows.isPrefix hpre (by omega), .inr ⟨l, m, hlen, hmem⟩⟩
    · obtain ⟨rfl, ht, hlt, hlog⟩ := hc.replied v l t m hmem
      have hlog' := hlog.trans (hc.grows.ext t)
      exact .inr ⟨List.prefix_of_prefix_length_le hpre hlog' (by omega), ht⟩

/-- What a node holds of terms before its own, it held already. -/
theorem Change.holds_of_lt (hc : Change C tr tr' own own' s s' i ms) (h : Carried C tr own s)
    (hel' : Elected C tr' s') (hm' : Matched tr' own' s') {v : ν} {t : ℕ} {p : List (LogEntry γ)}
    (hp : Holds tr' own' s' v t p) (ht : t < (s'.node v).currentTerm) : Holds tr own s v t p :=
  (hc.holds h hel' hm' hp).resolve_right fun hnew => ht.ne hnew.2

theorem Carried.holds_dated (h : Carried C tr own s) {v : ν} {t : ℕ} {p : List (LogEntry γ)}
    (hp : Holds tr own s v t p) : ∀ x ∈ p, x.term ≤ t := fun x hx =>
  h.dated t x (hp.1.subset hx)

theorem Carried.holds_le (h : Carried C tr own s) (hel : Elected C tr s) {v : ν} {t : ℕ}
    {p : List (LogEntry γ)} (hp : Holds tr own s v t p) : t ≤ (s.node v).currentTerm := by
  obtain ⟨-, hwon | ⟨l, m, -, hmem⟩⟩ := hp
  · exact (hel.won v t hwon).1
  · exact (h.replied v l t m hmem).2

theorem Carried.step_dated (h : Carried C tr own s) (hm' : Matched tr' own' s')
    (hc : Change C tr tr' own own' s s' i ms) :
    (∀ t, ∀ x ∈ own' t, x.term ≤ t) ∧
      ∀ j, ∀ x ∈ (s'.node j).log, x.term ≤ (s'.node j).currentTerm := by
  have hlog : ∀ j, ∀ x ∈ (s'.node j).log, x.term ≤ (s'.node j).currentTerm := by
    intro j x hx
    by_cases hj : j = i
    · subst hj
      rcases hc.entries x hx with hold | hlead | hnew
      · exact (h.logDated j x hold).trans hc.term
      · exact h.dated _ x hlead
      · exact hnew.le
    · rw [hc.other j hj] at hx ⊢
      exact h.logDated j x hx
  refine ⟨fun t x hx => ?_, hlog⟩
  by_cases hsame : own' t = own t
  · exact h.dated t x (hsame ▸ hx)
  · obtain ⟨hst, rfl⟩ := hc.grown t hsame
    rw [hm'.leader i hst] at hx
    exact hlog i x hx

theorem Carried.step_replied (h : Carried C tr own s) (hc : Change C tr tr' own own' s s' i ms)
    {v l : ν} {t m : ℕ}
    (hm : .appendReply v l { term := t, success := true, matchIndex := m } ∈ s'.messages) :
    m < (own' t).length ∧ t ≤ (s'.node v).currentTerm := by
  rw [hc.sent, List.mem_append] at hm
  rcases hm with hm | hm
  · obtain ⟨hlt, hle⟩ := h.replied v l t m hm
    exact ⟨hlt.trans_le (hc.grows.ext t).length_le, hle.trans (hc.term_le v)⟩
  · obtain ⟨rfl, rfl, hlt, hlog⟩ := hc.replied v l t m hm
    exact ⟨hlt.trans_le (hlog.trans (hc.grows.ext _)).length_le, le_rfl⟩

/-- A node loses a piece it held only to a leader that lacks it. -/
theorem Carried.step_held (h : Carried C tr own s) (hel : Elected C tr s)
    (hel' : Elected C tr' s') (hm' : Matched tr' own' s')
    (hc : Change C tr tr' own own' s s' i ms) {v : ν} {t : ℕ} {p : List (LogEntry γ)}
    (hp : Holds tr' own' s' v t p) :
    Kept own' p t (s'.node v).currentTerm (s'.node v).log := by
  rcases hc.holds h hel' hm' hp with hold | ⟨hlog, -⟩
  · have hkept := h.held v t p hold
    have hdated := h.holds_dated hold
    by_cases hv : v = i
    · subst hv
      rcases hkept with hlog | ⟨u, htu, hu, hne, hlack⟩
      · rcases hc.keeps p hlog with hlog' | ⟨hne, hlack⟩
        · exact .inl hlog'
        · have hne' : t ≠ (s'.node v).currentTerm := fun heq => hlack (heq ▸ hold.1)
          have hlt := lt_of_le_of_ne ((h.holds_le hel hold).trans hc.term) hne'
          exact Kept.grows (.inr ⟨_, hlt, le_rfl, hne, hlack⟩) hc.grows hdated le_rfl
      · exact Kept.grows (.inr ⟨u, htu, hu, hne, hlack⟩) hc.grows hdated hc.term
    · rw [hc.other v hv]
      exact hkept.grows hc.grows hdated le_rfl
  · exact .inl hlog

/-- A log is the part of the log of its last entry's term that ends with that entry. -/
theorem Matched.last (h : Matched tr own s) {last : LogEntry γ}
    (hlast : (s.node i).log.getLast? = some last) :
    (own last.term)[last.index]? = some last ∧ (s.node i).log.length = last.index + 1 ∧
      (s.node i).log = (own last.term).take (last.index + 1) := by
  rw [List.getLast?_eq_getElem?] at hlast
  have hlt := (List.getElem?_eq_some_iff.mp hlast).1
  have hindex := h.entry_index hlast
  have hpre := h.backed i _ _ hlast
  rw [List.take_of_length_le (by omega)] at hpre
  have hlen : last.index + 1 = (s.node i).log.length := by omega
  refine ⟨?_, hlen.symm, ?_⟩
  · rw [hindex]
    exact (h.backed i).getElem? hlast
  · rw [hlen, take_eq_of_isPrefix hpre]

theorem Carried.step_requested (h : Carried C tr own s) (hm : Matched tr own s)
    (hc : Change C tr tr' own own' s s' i ms) {dst : ν} {args : RequestVoteArgs ν}
    (hmem : .requestVote dst args ∈ s'.messages) :
    (∃ y, (own' args.lastLogTerm)[args.lastLogIndex]? = some y ∧ y.term = args.lastLogTerm) ∧
      args.lastLogTerm < args.term ∧ args.term ≤ (s'.node args.candidateId).currentTerm ∧
      ((s'.node args.candidateId).state = .candidate →
        (s'.node args.candidateId).currentTerm = args.term →
          (s'.node args.candidateId).log = (own' args.lastLogTerm).take (args.lastLogIndex + 1)) := by
  rw [hc.sent, List.mem_append] at hmem
  rcases hmem with hmem | hmem
  · obtain ⟨⟨y, hy, hyt⟩, hlt, hle, hcand⟩ := h.requested dst args hmem
    refine ⟨⟨y, getElem?_of_isPrefix (hc.grows.ext _) hy, hyt⟩, hlt,
      hle.trans (hc.term_le args.candidateId), fun hst ht => ?_⟩
    rw [hc.grows.take_eq (List.getElem?_eq_some_iff.mp hy).1]
    by_cases hid : args.candidateId = i
    · rw [hid] at hst ht hle hcand ⊢
      -- the term of the request is the candidate's term already before the step
      have heq := le_antisymm (hc.term.trans_eq ht) hle
      obtain ⟨hold, hlog⟩ := hc.candidate hst (ht.trans heq.symm)
      rw [hlog]
      exact hcand hold heq
    · rw [hc.other _ hid] at hst ht ⊢
      exact hcand hst ht
  · obtain ⟨hid, hterm, hlt, hlog, last, hlast, hindex, hlastTerm⟩ := hc.requested dst args hmem
    obtain ⟨hy, hlen, hown⟩ := hm.last hlast
    have hgrown := getElem?_of_isPrefix (hc.grows.ext _) hy
    have hold := h.logDated i last (List.mem_of_getLast? hlast)
    rw [hid, hindex, hlastTerm]
    refine ⟨⟨last, hgrown, rfl⟩, hold.trans_lt hlt, hterm.le, fun _ _ => ?_⟩
    rw [hlog, hc.grows.take_eq (List.getElem?_eq_some_iff.mp hy).1]
    exact hown

/-- A voter has passed on what it held of earlier terms to the log it voted for. -/
theorem Carried.step_voted (h : Carried C tr own s) (hm : Matched tr own s)
    (hel' : Elected C tr' s') (hm' : Matched tr' own' s')
    (hc : Change C tr tr' own own' s s' i ms) {v c : ν} {u : ℕ} (hg : Granted s' v c u) :
    ∃ dst args, .requestVote dst args ∈ s'.messages ∧ args.candidateId = c ∧ args.term = u ∧
      ∀ t p, t < u → Holds tr' own' s' v t p → (∃ x ∈ p, x.term = t) →
        Kept own' p t u ((own' args.lastLogTerm).take (args.lastLogIndex + 1)) := by
  -- the vote was cast in the node's term or before, so what it holds of earlier terms is old
  have hold : ∀ t p, t < u → Holds tr' own' s' v t p → Holds tr own s v t p := fun t p ht hp =>
    hc.holds_of_lt h hel' hm' hp (ht.trans_le (hel'.granted v c u hg).2.1)
  have hsent : ∀ dst args, .requestVote dst args ∈ s.messages →
      .requestVote dst args ∈ s'.messages := fun dst args hmem => by
    rw [hc.sent]
    exact List.mem_append_left _ hmem
  rw [Granted, hc.sent, List.mem_append] at hg
  rcases hg with hg | hg
  · obtain ⟨dst, args, hmem, hid, hterm, hkept⟩ := h.voted v c u hg
    obtain ⟨⟨y, hy, -⟩, -⟩ := h.requested dst args hmem
    refine ⟨dst, args, hsent dst args hmem, hid, hterm, fun t p ht hp hlast => ?_⟩
    have hp' := hold t p ht hp
    rw [hc.grows.take_eq (List.getElem?_eq_some_iff.mp hy).1]
    exact (hkept t p ht hp' hlast).grows hc.grows (h.holds_dated hp') le_rfl
  · obtain ⟨rfl, hu, args, hmem, hid, hterm, last, hlast, hup⟩ := hc.granted v c u hg
    obtain ⟨⟨y, hy, hyt⟩, hlt, -⟩ := h.requested v args hmem
    refine ⟨v, args, hsent v args hmem, hid, hterm, fun t p ht hp hin => ?_⟩
    have hp' := hold t p ht hp
    rw [hc.grows.take_eq (List.getElem?_eq_some_iff.mp hy).1]
    rw [upToDate, Bool.or_eq_true, decide_eq_true_eq, decide_eq_true_eq] at hup
    rw [← hyt] at hy hup hlt ⊢
    have hlen := (hm.last hlast).2.1
    have hmore : last.term < y.term ∨ y.term = last.term ∧
        (s.node v).log.length ≤ args.lastLogIndex + 1 := by
      refine hup.imp_right fun hsame => ⟨hsame.1, ?_⟩
      have hge := hsame.2
      omega
    have hkept := (h.held v t p hp').upToDate (hm.backed v) h.dated hp'.1 hin hlast hy hmore
      (hc.term.trans_eq hu.symm) (by omega)
    exact hkept.grows hc.grows (h.holds_dated hp') le_rfl

/-- A new leader starts with what its voters have kept. -/
theorem Carried.step_heir (h : Carried C tr own s) (hel : Elected C tr s)
    (hel' : Elected C tr' s') (hm' : Matched tr' own' s')
    (hc : Change C tr tr' own own' s s' i ms) {u : ℕ} (hu : u ≠ 0) (hne : own' u ≠ []) :
    ∃ q, IsQuorum C.members q ∧ ∀ v ∈ q, u ≤ (s'.node v).currentTerm ∧ ∀ t p, t < u →
      Holds tr' own' s' v t p → (∃ x ∈ p, x.term = t) → Kept own' p t (u - 1) (own' u) := by
  by_cases hnew : own u = []
  · obtain ⟨hown, hst, hterm, hq⟩ := hc.crowned u hnew hne
    refine ⟨_, hq, fun v hv => ?_⟩
    have hg : v ≠ i → Granted s v i u := fun hv' => by
      have hin := (List.mem_cons.mp hv).resolve_left hv'
      have hmem := (List.mem_filter.mp hin).2
      rw [hterm] at hmem
      simpa [Granted] using hmem
    have hle : u ≤ (s.node v).currentTerm := by
      by_cases hv' : v = i
      · rw [hv', hterm]
      · exact (hel.granted v i u (hg hv')).2.1
    refine ⟨hle.trans (hc.term_le v), fun t p ht hp hin => ?_⟩
    have hp' := hc.holds_of_lt h hel' hm' hp (ht.trans_le (hle.trans (hc.term_le v)))
    have hkept : Kept own p t u (s.node i).log := by
      by_cases hv' : v = i
      · rw [← hterm, ← hv']
        exact h.held v t p hp'
      · obtain ⟨dst, args, hmem, hid, hat, hkept⟩ := h.voted v i u (hg hv')
        obtain ⟨-, -, -, hcand⟩ := h.requested dst args hmem
        rw [hid, hat] at hcand
        rw [hcand hst hterm]
        exact hkept t p ht hp' hin
    rw [hown]
    exact (hkept.pred hnew).grows hc.grows (h.holds_dated hp') le_rfl
  · obtain ⟨q, hq, hall⟩ := h.heir u hu hnew
    refine ⟨q, hq, fun v hv => ?_⟩
    obtain ⟨hle, hkept⟩ := hall v hv
    refine ⟨hle.trans (hc.term_le v), fun t p ht hp hin => ?_⟩
    have hp' := hc.holds_of_lt h hel' hm' hp (ht.trans_le (hle.trans (hc.term_le v)))
    exact ((hkept t p ht hp' hin).extend (hc.grows.ext u)).grows hc.grows (h.holds_dated hp') le_rfl

theorem Carried.step (h : Carried C tr own s) (hm : Matched tr own s) (hel : Elected C tr s)
    (hel' : Elected C tr' s') (hm' : Matched tr' own' s')
    (hc : Change C tr tr' own own' s s' i ms) : Carried C tr' own' s' where
  dated := (h.step_dated hm' hc).1
  logDated := (h.step_dated hm' hc).2
  replied _ _ _ _ hmem := h.step_replied hc hmem
  held _ _ _ hp := h.step_held hel hel' hm' hc hp
  requested _ _ hmem := h.step_requested hm hc hmem
  voted _ _ _ hg := h.step_voted hm hel' hm' hc hg
  heir _ hu hne := h.step_heir hel hel' hm' hc hu hne

end Step

/-- A quorum holds the piece `p` of the log of term `t`, which has an entry of that term. -/
structure Committed (C : Cluster ν) (tr : History ν γ) (own : ℕ → List (LogEntry γ))
    (s : System ν γ) (t : ℕ) (p : List (LogEntry γ)) : Prop where
  piece : p <+: own t
  entry : ∃ x ∈ p, x.term = t
  quorum : ∃ q, IsQuorum C.members q ∧ ∀ v ∈ q, Holds tr own s v t p

variable {C : Cluster ν} {tr : History ν γ} {own : ℕ → List (LogEntry γ)} {s : System ν γ}

theorem Carried.leader_complete (h : Carried C tr own s) {t u : ℕ} {p : List (LogEntry γ)}
    (hp : Committed C tr own s t p) (htu : t ≤ u) (hne : own u ≠ []) : p <+: own u := by
  rcases htu.eq_or_lt with rfl | hlt
  · exact hp.piece
  · obtain ⟨q, hq, hholds⟩ := hp.quorum
    refine handed_on hq (fun w htw hw => ?_) hlt hne
    obtain ⟨q', hq', hall⟩ := h.heir w (by omega) hw
    exact ⟨q', hq', fun v hv' hv => (hall v hv').2 t p htw (hholds v hv) hp.entry⟩

end PySQL.Raft
