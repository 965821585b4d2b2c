import PySQL.Raft.Node

/-!
# What a reply says of the follower's log

A successful reply carries the last index of the follower's log, whether or not the message covered
the log up to there.
-/

namespace PySQL.Raft

open RaftNode

variable {ν γ : Type*} [DecidableEq ν] {leaderLog : List (LogEntry γ)} {n : RaftNode ν γ}
  {args : AppendEntriesArgs ν γ}

/-- Every entry carries its index. -/
def Indexed (log : List (LogEntry γ)) : Prop :=
  ∀ (i : ℕ) (x : LogEntry γ), log[i]? = some x → x.index = i

/-- Entries of one index and term have the same entries before them. -/
def LogsMatch (log log' : List (LogEntry γ)) : Prop :=
  ∀ (i : ℕ) (x y : LogEntry γ), log[i]? = some x → log'[i]? = some y → x.term = y.term →
    log.take (i + 1) = log'.take (i + 1)

/-- A position of the log with its term, and a run of entries right after it. -/
def BuiltFrom (leaderLog : List (LogEntry γ)) (args : AppendEntriesArgs ν γ) : Prop :=
  leaderLog[args.prevLogIndex]?.map LogEntry.term = some args.prevLogTerm ∧
    args.entries <+: leaderLog.drop (args.prevLogIndex + 1)

/-- The last index that the message says something about. -/
def AppendEntriesArgs.covered (args : AppendEntriesArgs ν γ) : ℕ :=
  args.prevLogIndex + args.entries.length

/-- The match index of a successful reply is within the leader's log, the logs agree up to it, and
the commit index does not move past what the message covers. -/
def Truthful (leaderLog : List (LogEntry γ)) (n : RaftNode ν γ) (args : AppendEntriesArgs ν γ) :
    Prop :=
  let r := n.handleAppendEntries args
  (r.2.1.success = true → r.2.1.matchIndex < leaderLog.length ∧
      ∀ i ≤ r.2.1.matchIndex, r.1.log[i]? = leaderLog[i]?) ∧
    r.1.commitIndex ≤ max n.commitIndex args.covered

/-- The node answers the message with success. -/
def Accepts (n : RaftNode ν γ) (args : AppendEntriesArgs ν γ) : Prop :=
  n.currentTerm ≤ args.term ∧ n.log[args.prevLogIndex]?.map LogEntry.term = some args.prevLogTerm

/-- An entry of the message replaces one of another term. -/
def Conflicts (n : RaftNode ν γ) (args : AppendEntriesArgs ν γ) : Prop :=
  ∃ x ∈ args.entries, ∃ y, n.log[x.index]? = some y ∧ y.term ≠ x.term

/-- What lies beyond the entries that the message covers: nothing, or it is cut off, or it is in the
leader's log as well and not committed yet. -/
def RestKnown (leaderLog : List (LogEntry γ)) (n : RaftNode ν γ) (args : AppendEntriesArgs ν γ) :
    Prop :=
  n.log.length ≤ args.covered + 1 ∨ Conflicts n args ∨
    n.log <+: leaderLog ∧
      min args.leaderCommit (n.log.length - 1) ≤ max n.commitIndex args.covered

/-! ## The append loop -/

theorem take_succ_of_getElem? {log : List (LogEntry γ)} {j : ℕ} {x : LogEntry γ}
    (h : log[j]? = some x) : log.take (j + 1) = log.take j ++ [x] := by
  rw [List.take_add_one, h]
  rfl

theorem head_of_isPrefix_drop {x : LogEntry γ} {entries : List (LogEntry γ)} {j : ℕ}
    (h : x :: entries <+: leaderLog.drop j) :
    leaderLog[j]? = some x ∧ entries <+: leaderLog.drop (j + 1) := by
  obtain ⟨rest, hrest⟩ := h
  constructor
  · have hget : (leaderLog.drop j)[0]? = some x := by
      rw [← hrest]
      rfl
    rwa [List.getElem?_drop] at hget
  · refine ⟨rest, ?_⟩
    rw [← List.tail_drop, ← hrest]
    rfl

/-- At the end of the log every entry is appended. -/
theorem foldl_appendEntry_take (hindex : Indexed leaderLog) {entries : List (LogEntry γ)} {j : ℕ}
    (hrun : entries <+: leaderLog.drop j) :
    entries.foldl appendEntry (leaderLog.take j) = leaderLog.take (j + entries.length) := by
  induction entries generalizing j with
  | nil => rfl
  | cons x entries ih =>
    obtain ⟨hx, hrun'⟩ := head_of_isPrefix_drop hrun
    have hend : (leaderLog.take j)[x.index]? = none := by
      rw [hindex j x hx, List.getElem?_eq_none_iff]
      exact List.length_take_le j leaderLog
    have happ : appendEntry (leaderLog.take j) x = leaderLog.take (j + 1) := by
      rw [take_succ_of_getElem? hx, appendEntry, hend]
    rw [List.foldl_cons, happ, ih hrun', List.length_cons, Nat.add_assoc, Nat.add_comm 1]

/-- The log stays as it is where it has the run already, else it becomes the leader's up to the end
of the run: at the first entry that is missing or of another term. -/
theorem foldl_appendEntry_cases (hindex : Indexed leaderLog) {log : List (LogEntry γ)}
    (hmatch : LogsMatch leaderLog log) {entries : List (LogEntry γ)} {j : ℕ}
    (hagree : log.take j = leaderLog.take j) (hj : j ≤ log.length)
    (hrun : entries <+: leaderLog.drop j) :
    (entries.foldl appendEntry log = log ∧ j + entries.length ≤ log.length ∧
        log.take (j + entries.length) = leaderLog.take (j + entries.length) ∧
        ∀ x ∈ entries, ∃ y, log[x.index]? = some y ∧ y.term = x.term) ∨
      (entries.foldl appendEntry log = leaderLog.take (j + entries.length) ∧
        (log.length < j + entries.length ∨
          ∃ x ∈ entries, ∃ y, log[x.index]? = some y ∧ y.term ≠ x.term)) := by
  induction entries generalizing j with
  | nil => exact .inl ⟨rfl, hj, hagree, by simp⟩
  | cons x entries ih =>
    obtain ⟨hx, hrun'⟩ := head_of_isPrefix_drop hrun
    have hxi := hindex j x hx
    have hlength : j + (x :: entries).length = j + 1 + entries.length := by
      rw [List.length_cons]
      omega
    rw [List.foldl_cons, hlength]
    cases hold : log[j]? with
    | none =>
      have hle := List.getElem?_eq_none_iff.mp hold
      have happ : appendEntry log x = leaderLog.take (j + 1) := by
        rw [appendEntry, hxi, hold, take_succ_of_getElem? hx, ← hagree, List.take_of_length_le hle]
      rw [happ, foldl_appendEntry_take hindex hrun']
      exact .inr ⟨rfl, .inl (by omega)⟩
    | some old =>
      have hlt := (List.getElem?_eq_some_iff.mp hold).1
      by_cases hterm : old.term = x.term
      · have happ : appendEntry log x = log := by
          rw [appendEntry, hxi, hold]
          simp [hterm]
        have hagree' := (hmatch j x old hx hold hterm.symm).symm
        rw [happ]
        rcases ih hagree' hlt hrun' with ⟨heq, hle, htake, hsame⟩ | ⟨heq, hwhy⟩
        · refine .inl ⟨heq, hle, htake, ?_⟩
          rw [List.forall_mem_cons]
          exact ⟨⟨old, hxi ▸ hold, hterm⟩, hsame⟩
        · refine .inr ⟨heq, hwhy.imp_right fun h => ?_⟩
          obtain ⟨z, hz, hy⟩ := h
          exact ⟨z, List.mem_cons_of_mem x hz, hy⟩
      · have happ : appendEntry log x = leaderLog.take (j + 1) := by
          rw [appendEntry, hxi, hold, take_succ_of_getElem? hx, ← hagree]
          simp [hterm]
        rw [happ, foldl_appendEntry_take hindex hrun']
        exact .inr ⟨rfl, .inr ⟨x, List.mem_cons_self, old, hxi ▸ hold, hterm⟩⟩

/-! ## The reply -/

theorem isPrefix_iff_agree {log : List (LogEntry γ)} (hne : log ≠ []) :
    (log.length - 1 < leaderLog.length ∧ ∀ i ≤ log.length - 1, log[i]? = leaderLog[i]?) ↔
      log <+: leaderLog := by
  have hpos := List.length_pos_iff.mpr hne
  constructor
  · intro h
    rw [List.prefix_iff_eq_take]
    apply List.ext_getElem?
    intro i
    rw [List.getElem?_take]
    split
    · next hlt => exact h.2 i (by omega)
    · next hge => exact List.getElem?_eq_none_iff.mpr (by omega)
  · rintro ⟨rest, rfl⟩
    constructor
    · rw [List.length_append]
      omega
    · intro i hi
      rw [List.getElem?_append_left (by omega)]

/-- The commit index of a follower afterwards, against a bound that the old one meets. -/
theorem advanceCommit_le_iff {leaderCommit b : ℕ} (hb : n.commitIndex ≤ b) :
    (n.advanceCommit leaderCommit).1.commitIndex ≤ b ↔ min leaderCommit (n.log.length - 1) ≤ b := by
  unfold advanceCommit
  split
  · rfl
  · next hle =>
    have hmin : min leaderCommit (n.log.length - 1) ≤ b :=
      (Nat.min_le_left _ _).trans ((not_lt.mp hle).trans hb)
    exact iff_of_true hb hmin

theorem acceptLeader_commitIndex (term : ℕ) : (n.acceptLeader term).commitIndex = n.commitIndex := by
  unfold acceptLeader
  split <;> rfl

/-- What a truthful reply to an accepted message says of the log after it. -/
def LogKnown (leaderLog : List (LogEntry γ)) (n : RaftNode ν γ) (args : AppendEntriesArgs ν γ) :
    Prop :=
  let log := args.entries.foldl appendEntry n.log
  (log.length - 1 < leaderLog.length ∧ ∀ i ≤ log.length - 1, log[i]? = leaderLog[i]?) ∧
    min args.leaderCommit (log.length - 1) ≤ max n.commitIndex args.covered

theorem not_accepts_of_prev {term : ℕ} (hterm : ∀ prev,
    (n.acceptLeader term).log[args.prevLogIndex]? = some prev → prev.term ≠ args.prevLogTerm) :
    ¬ Accepts n args := by
  intro hacc
  rw [acceptLeader_log] at hterm
  obtain ⟨prev, hprev, heq⟩ := Option.map_eq_some_iff.mp hacc.2
  exact hterm prev hprev heq

/-- A message that is not accepted gets no success and moves no commit index; an accepted one
appends its entries. -/
theorem truthful_iff_logKnown :
    Truthful leaderLog n args ↔ (Accepts n args → LogKnown leaderLog n args) := by
  unfold Truthful
  have houtcome := n.handleAppendEntries_outcome args
  generalize n.handleAppendEntries args = r at houtcome ⊢
  cases houtcome with
  | stale h =>
    have hnot : ¬ Accepts n args := fun hacc => absurd hacc.1 (not_le.mpr h)
    exact iff_of_true ⟨nofun, le_max_left _ _⟩ fun hacc => absurd hacc hnot
  | missing h n₁ hn₁ hprev =>
    subst hn₁
    have hnot : ¬ Accepts n args := not_accepts_of_prev fun prev heq => by
      rw [hprev] at heq
      cases heq
    refine iff_of_true ⟨nofun, ?_⟩ fun hacc => absurd hacc hnot
    exact (acceptLeader_commitIndex _).le.trans (le_max_left _ _)
  | mismatch h n₁ hn₁ prev hprev hne =>
    subst hn₁
    have hnot : ¬ Accepts n args := not_accepts_of_prev fun prev' heq => by
      rw [hprev] at heq
      exact Option.some.inj heq ▸ hne
    refine iff_of_true ⟨nofun, ?_⟩ fun hacc => absurd hacc hnot
    exact (acceptLeader_commitIndex _).le.trans (le_max_left _ _)
  | appended h n₁ hn₁ prev hprev heq r hr =>
    subst hn₁
    rw [acceptLeader_log] at hprev hr
    have hacc : Accepts n args := ⟨h, by rw [hprev, ← heq]; rfl⟩
    generalize hn₂ : ({ n.acceptLeader args.term with
      log := args.entries.foldl appendEntry n.log } : RaftNode ν γ) = n₂ at hr
    have hlog : n₂.log = args.entries.foldl appendEntry n.log := hn₂ ▸ rfl
    have hb : n₂.commitIndex ≤ max n.commitIndex args.covered := by
      rw [← hn₂]
      exact (acceptLeader_commitIndex _).le.trans (le_max_left _ _)
    obtain ⟨c, a, hadvance⟩ := advanceCommit_eq n₂ args.leaderCommit
    have hlog' : r.1.log = n₂.log := by rw [hr, hadvance]
    have hcommit : r.1.commitIndex ≤ max n.commitIndex args.covered ↔ _ :=
      hr ▸ advanceCommit_le_iff hb
    simp only [hcommit, hlog', hlog, hacc, true_implies, LogKnown]

/-- What the append loop leaves of the log, in terms of the log before. -/
theorem logKnown_iff (hindex : Indexed leaderLog) (hmatch : LogsMatch leaderLog n.log)
    (hargs : BuiltFrom leaderLog args) (hacc : Accepts n args) :
    LogKnown leaderLog n args ↔ RestKnown leaderLog n args := by
  obtain ⟨hprev, hrun⟩ := hargs
  obtain ⟨x, hx, hxterm⟩ := Option.map_eq_some_iff.mp hprev
  obtain ⟨y, hy, hyterm⟩ := Option.map_eq_some_iff.mp hacc.2
  have hagree := (hmatch _ x y hx hy (hxterm.trans hyterm.symm)).symm
  have hlt := (List.getElem?_eq_some_iff.mp hy).1
  have hlen := (List.getElem?_eq_some_iff.mp hx).1
  have hcover : args.prevLogIndex + 1 + args.entries.length = args.covered + 1 := by
    rw [AppendEntriesArgs.covered]
    omega
  have hfits : args.covered + 1 ≤ leaderLog.length := by
    have hle := hrun.length_le
    rw [List.length_drop] at hle
    omega
  -- a log that is the leader's up to the covered index
  have hcovered : ∀ {log : List (LogEntry γ)}, log = leaderLog.take (args.covered + 1) →
      (log.length - 1 < leaderLog.length ∧ ∀ i ≤ log.length - 1, log[i]? = leaderLog[i]?) ∧
        min args.leaderCommit (log.length - 1) ≤ max n.commitIndex args.covered := by
    intro log hlog
    have hlength : log.length = args.covered + 1 := by
      rw [hlog, List.length_take, min_eq_left hfits]
    have hne : log ≠ [] := by
      intro hnil
      rw [hnil] at hlength
      cases hlength
    refine ⟨(isPrefix_iff_agree hne).mpr (hlog ▸ List.take_prefix _ _), ?_⟩
    rw [hlength, Nat.add_sub_cancel]
    exact (Nat.min_le_right _ _).trans (le_max_right _ _)
  unfold LogKnown RestKnown
  rcases foldl_appendEntry_cases hindex hmatch hagree hlt hrun with
    ⟨heq, hle, htake, hsame⟩ | ⟨heq, hwhy⟩
  · rw [hcover] at hle htake
    have hne : n.log ≠ [] := List.ne_nil_of_length_pos (Nat.zero_lt_of_lt hlt)
    have hnot : ¬ Conflicts n args := by
      rintro ⟨z, hz, w, hw, hterm⟩
      obtain ⟨w', hw', hterm'⟩ := hsame z hz
      exact hterm (Option.some.inj (hw.symm.trans hw') ▸ hterm')
    simp only [heq, isPrefix_iff_agree hne]
    constructor
    · exact fun h => .inr (.inr h)
    · rintro (hshort | hconflict | h)
      · -- the log ends with the covered entries
        rw [List.take_of_length_le hshort] at htake
        obtain ⟨hpre, hmin⟩ := hcovered htake
        exact ⟨(isPrefix_iff_agree hne).mp hpre, hmin⟩
      · exact absurd hconflict hnot
      · exact h
  · rw [hcover] at heq hwhy
    refine iff_of_true (hcovered heq) ?_
    rcases hwhy with hshort | hconflict
    · exact .inl hshort.le
    · exact .inr (.inl hconflict)

/-- The reply is truthful exactly if the node refuses the message or knows where the rest of its log
comes from. -/
theorem truthful_iff (hindex : Indexed leaderLog) (hmatch : LogsMatch leaderLog n.log)
    (hargs : BuiltFrom leaderLog args) :
    Truthful leaderLog n args ↔ (Accepts n args → RestKnown leaderLog n args) := by
  rw [truthful_iff_logKnown]
  exact forall_congr' fun hacc => logKnown_iff hindex hmatch hargs hacc

def newEntry : LogEntry ℕ := { term := 2, index := 1, command := some 7 }

/-- A follower with the dummy entry only, and a message with the next entry. -/
theorem truthful_iff_newEntry :
    Truthful [dummyEntry ℕ, newEntry] ({ nodeId := 1, peers := [0] } : RaftNode ℕ ℕ)
      ⟨2, 0, 0, 0, [newEntry], 1⟩ := by
  apply (truthful_iff _ _ _).mpr
  · exact fun _ => .inl (by decide)
  · intro i x hx
    match i, hx with
    | 0, hx => exact Option.some.inj hx ▸ rfl
    | 1, hx => exact Option.some.inj hx ▸ rfl
  · intro i x y hx hy hterm
    match i, hx, hy with
    | 0, hx, hy => rfl
  · exact ⟨rfl, [], rfl⟩

def staleEntry : LogEntry ℕ := { term := 1, index := 1, command := some 7 }

/-- A follower with an entry that the leader of the next term lacks, and an empty heartbeat. -/
theorem staleEntry_not_truthful :
    Indexed [dummyEntry ℕ] ∧ Indexed [dummyEntry ℕ, staleEntry] ∧
      LogsMatch [dummyEntry ℕ] [dummyEntry ℕ, staleEntry] ∧
      BuiltFrom [dummyEntry ℕ] (⟨2, 0, 0, 0, [], 0⟩ : AppendEntriesArgs ℕ ℕ) ∧
      ¬ Truthful [dummyEntry ℕ] ({ nodeId := 1, peers := [0], log := [dummyEntry ℕ, staleEntry] } :
        RaftNode ℕ ℕ) ⟨2, 0, 0, 0, [], 0⟩ := by
  refine ⟨?_, ?_, ?_, ⟨rfl, List.nil_prefix⟩, ?_⟩
  · intro i x hx
    match i, hx with
    | 0, hx => exact Option.some.inj hx ▸ rfl
  · intro i x hx
    match i, hx with
    | 0, hx => exact Option.some.inj hx ▸ rfl
    | 1, hx => exact Option.some.inj hx ▸ rfl
  · intro i x y hx hy hterm
    match i, hx, hy with
    | 0, hx, hy => rfl
  · intro h
    exact absurd (h.1 rfl).1 (by decide)

end PySQL.Raft
