import PySQL.Storage.BufferPool

/-!
# Which frame the clock sweep finds

One turn of the hand clears the reference bit of the frame it passes, unless the frame is pinned.
After one round no frame that can be evicted has its bit set, so a second round finds the first of
them.
-/

namespace PySQL.Storage

open Lib

set_option linter.unusedSectionVars false

variable {n : ℕ} [NeZero n]

/-- The header of a frame that the hand has passed. -/
def FrameHeader.passed (h : FrameHeader) : FrameHeader :=
  if h.pinCount = 0 then { h with refBit := false } else h

/-- An unpinned frame with a clear reference bit ends the sweep. -/
def FrameHeader.Evictable (h : FrameHeader) : Prop := h.pinCount = 0 ∧ h.refBit = false

section Header

variable {h : FrameHeader}

@[simp] theorem FrameHeader.passed_passed : h.passed.passed = h.passed := by
  by_cases hpin : h.pinCount = 0 <;> simp [FrameHeader.passed, hpin]

@[simp] theorem FrameHeader.pinCount_passed : h.passed.pinCount = h.pinCount := by
  by_cases hpin : h.pinCount = 0 <;> simp [FrameHeader.passed, hpin]

theorem FrameHeader.evictable_passed : h.passed.Evictable ↔ h.pinCount = 0 := by
  by_cases hpin : h.pinCount = 0 <;> simp [FrameHeader.passed, FrameHeader.Evictable, hpin]

end Header

namespace BufferPool

variable {b : BufferPool n} {f : Fin n} {j k m turns : ℕ}

/-- The frame under the hand after `k` moves. -/
def clockAt (b : BufferPool n) (k : ℕ) : Fin n := b.clockHand + Fin.ofNat n k

/-- How far the hand is from a frame. -/
def distance (b : BufferPool n) (f : Fin n) : ℕ := (f - b.clockHand).val

theorem distance_lt (b : BufferPool n) (f : Fin n) : b.distance f < n := (f - b.clockHand).isLt

@[simp] theorem clockAt_distance (b : BufferPool n) (f : Fin n) : b.clockAt (b.distance f) = f := by
  rw [clockAt, distance, Fin.ofNat_val_eq_self]
  exact add_sub_cancel _ _

theorem distance_clockAt (b : BufferPool n) (k : ℕ) : b.distance (b.clockAt k) = k % n := by
  rw [distance, clockAt, add_sub_cancel_left]
  rfl

theorem distance_clockAt_of_lt (h : k < n) : b.distance (b.clockAt k) = k := by
  rw [distance_clockAt, Nat.mod_eq_of_lt h]

/-! ## One turn -/

/-- A turn of the sweep that finds nothing. -/
def turn (b : BufferPool n) : BufferPool n :=
  (b.setHeader b.clockHand (b.headers b.clockHand).passed).advance

theorem sweep_of_evictable (h : (b.headers b.clockHand).Evictable) :
    (b.sweep (turns + 1)).2 = .ok b.clockHand := by
  obtain ⟨hpin, hclear⟩ := h
  simp [sweep, hpin, hclear]

theorem sweep_turn (h : ¬ (b.headers b.clockHand).Evictable) :
    b.sweep (turns + 1) = b.turn.sweep turns := by
  rw [sweep]
  by_cases hpin : (b.headers b.clockHand).pinCount = 0
  · have href : (b.headers b.clockHand).refBit = true := by
      rw [FrameHeader.Evictable, not_and, Bool.not_eq_false] at h
      exact h hpin
    simp only [hpin, href, if_true, turn, FrameHeader.passed]
  · -- a pinned frame keeps its header
    have hsame : b.setHeader b.clockHand (b.headers b.clockHand) = b := by
      rw [setHeader, Function.update_eq_self]
    simp only [hpin, if_false, turn, FrameHeader.passed, hsame]

theorem clockHand_turns (b : BufferPool n) (m : ℕ) : (turn^[m] b).clockHand = b.clockAt m := by
  induction m with
  | zero => simp [clockAt]
  | succ m ih =>
    rw [Function.iterate_succ_apply']
    show (turn^[m] b).clockHand + 1 = b.clockAt (m + 1)
    rw [ih, clockAt, clockAt, add_assoc]
    congr 1
    apply Fin.ext
    simp [Fin.val_add]

/-- The headers that `m` turns have passed are those at a distance below `m`. -/
theorem headers_turns (b : BufferPool n) (m : ℕ) (f : Fin n) :
    (turn^[m] b).headers f = if b.distance f < m then (b.headers f).passed else b.headers f := by
  induction m with
  | zero => simp
  | succ m ih =>
    rw [Function.iterate_succ_apply']
    show ((turn^[m] b).setHeader _ _).headers f = _
    rw [headers_setHeader, clockHand_turns]
    by_cases hf : f = b.clockAt m
    · -- the frame under the hand; in a second round it has been passed already
      have hle : b.distance f < m + 1 := by
        rw [hf, distance_clockAt]
        have := Nat.mod_le m n
        omega
      rw [if_pos hf, if_pos hle, ← hf, ih]
      split
      · exact FrameHeader.passed_passed
      · rfl
    · have hne : b.distance f ≠ m := fun heq => hf (by rw [← heq, clockAt_distance])
      rw [if_neg hf, ih]
      by_cases hlt : b.distance f < m
      · rw [if_pos hlt, if_pos (by omega)]
      · rw [if_neg hlt, if_neg (by omega)]

/-! ## Whole sweeps -/

/-- Turns that pass no frame to evict. -/
theorem sweep_add (hm : m ≤ n) (h : ∀ j < m, ¬ (b.headers (b.clockAt j)).Evictable) :
    b.sweep (m + turns) = (turn^[m] b).sweep turns := by
  induction m generalizing turns with
  | zero => simp
  | succ m ih =>
    have hprev : b.sweep (m + (turns + 1)) = (turn^[m] b).sweep (turns + 1) :=
      ih (by omega) fun j hj => h j (by omega)
    rw [Nat.add_assoc, Nat.add_comm 1, hprev, Function.iterate_succ_apply']
    refine sweep_turn ?_
    rw [clockHand_turns, headers_turns, distance_clockAt_of_lt (by omega), if_neg (lt_irrefl m)]
    exact h m (by omega)

/-- The first frame to evict, if the hand comes to it. -/
theorem sweep_first (hk : k < n) (hturns : k < turns)
    (hfirst : ∀ j < k, ¬ (b.headers (b.clockAt j)).Evictable)
    (hevict : (b.headers (b.clockAt k)).Evictable) : (b.sweep turns).2 = .ok (b.clockAt k) := by
  obtain ⟨rest, rfl⟩ : ∃ rest, turns = k + (rest + 1) := ⟨turns - k - 1, by omega⟩
  rw [sweep_add hk.le hfirst, ← clockHand_turns]
  apply sweep_of_evictable
  rw [clockHand_turns, headers_turns, distance_clockAt_of_lt hk, if_neg (lt_irrefl k)]
  exact hevict

/-- A whole round brings the hand back and passes every frame. -/
theorem sweep_round (turns : ℕ) (h : ∀ f, ¬ (b.headers f).Evictable) : ∃ b' : BufferPool n,
    b.sweep (n + turns) = b'.sweep turns ∧ b'.clockHand = b.clockHand ∧
      ∀ f, b'.headers f = (b.headers f).passed := by
  refine ⟨turn^[n] b, sweep_add le_rfl fun j _ => h _, ?_, fun f => ?_⟩
  · rw [clockHand_turns, clockAt]
    simp
  · rw [headers_turns, if_pos (b.distance_lt f)]

/-- With no clear reference bit the second round finds the first frame that is not pinned. -/
theorem sweep_second_round (hnone : ∀ f, ¬ (b.headers f).Evictable) (hk : k < n)
    (hfirst : ∀ j < k, (b.headers (b.clockAt j)).pinCount ≠ 0)
    (hpin : (b.headers (b.clockAt k)).pinCount = 0) :
    (b.sweep (2 * n)).2 = .ok (b.clockAt k) := by
  obtain ⟨b', hsweep, hhand, hheaders⟩ := sweep_round n hnone
  have hclock : ∀ j, b'.clockAt j = b.clockAt j := fun j => by rw [clockAt, hhand, clockAt]
  rw [two_mul, hsweep, ← hclock]
  refine sweep_first hk hk (fun j hj => ?_) ?_
  · rw [hheaders, FrameHeader.evictable_passed, hclock]
    exact hfirst j hj
  · rw [hheaders, FrameHeader.evictable_passed, hclock]
    exact hpin

theorem sweep_of_pinned (h : ∀ f, (b.headers f).pinCount ≠ 0) (turns : ℕ) :
    (b.sweep turns).2 = .error .poolExhausted := by
  induction turns generalizing b with
  | zero => rfl
  | succ turns ih =>
    rw [sweep_turn fun hevict => h _ hevict.1]
    refine ih fun f => ?_
    have hheader := headers_turns b 1 f
    rw [Function.iterate_one] at hheader
    rw [hheader]
    split
    · rw [FrameHeader.pinCount_passed]
      exact h f
    · exact h f

/-- The first frame in clock order that satisfies `P`. -/
def FirstInClockOrder (b : BufferPool n) (P : FrameHeader → Prop) (f : Fin n) : Prop :=
  P (b.headers f) ∧ ∀ g, b.distance g < b.distance f → ¬ P (b.headers g)

theorem exists_first {P : FrameHeader → Prop} (h : ∃ f, P (b.headers f)) :
    ∃ f, b.FirstInClockOrder P f := by
  classical
  -- the least distance of a frame that satisfies `P`
  have hex : ∃ d, ∃ f, b.distance f = d ∧ P (b.headers f) := by
    obtain ⟨f, hf⟩ := h
    exact ⟨_, f, rfl, hf⟩
  obtain ⟨f, hdist, hf⟩ := Nat.find_spec hex
  refine ⟨f, hf, fun g hg hP => ?_⟩
  rw [hdist] at hg
  exact Nat.find_min hex hg ⟨g, rfl, hP⟩

theorem FirstInClockOrder.before {P : FrameHeader → Prop} (h : b.FirstInClockOrder P f)
    (hj : j < b.distance f) : ¬ P (b.headers (b.clockAt j)) := by
  refine h.2 _ ?_
  rw [distance_clockAt_of_lt (hj.trans (b.distance_lt f))]
  exact hj

theorem findVictimFrame_of_evictable (hfull : ∀ f, 0 ≤ (b.headers f).pageId)
    (h : b.FirstInClockOrder FrameHeader.Evictable f) : b.findVictimFrame.2 = .ok f := by
  have hlt := b.distance_lt f
  have hsweep : (b.sweep (2 * n)).2 = .ok (b.clockAt (b.distance f)) :=
    sweep_first hlt (by omega) (fun _ => h.before) (by rw [clockAt_distance]; exact h.1)
  rw [clockAt_distance] at hsweep
  rw [findVictimFrame, emptyFrame?_eq_none.mpr hfull]
  exact hsweep

theorem findVictimFrame_of_unpinned (hfull : ∀ f, 0 ≤ (b.headers f).pageId)
    (hnone : ∀ f, ¬ (b.headers f).Evictable)
    (h : b.FirstInClockOrder (·.pinCount = 0) f) : b.findVictimFrame.2 = .ok f := by
  have hsweep := sweep_second_round hnone (b.distance_lt f) (fun _ => h.before)
    (by rw [clockAt_distance]; exact h.1)
  rw [clockAt_distance] at hsweep
  rw [findVictimFrame, emptyFrame?_eq_none.mpr hfull]
  exact hsweep

theorem findVictimFrame_of_pinned (hfull : ∀ f, 0 ≤ (b.headers f).pageId)
    (h : ∀ f, (b.headers f).pinCount ≠ 0) : b.findVictimFrame.2 = .error .poolExhausted := by
  rw [findVictimFrame, emptyFrame?_eq_none.mpr hfull]
  exact sweep_of_pinned h _

theorem findVictimFrame_of_empty (h : ∃ f, (b.headers f).pageId < 0) :
    ∃ f, IsLeast {f | (b.headers f).pageId < 0} f ∧ b.findVictimFrame.2 = .ok f := by
  cases hempty : b.emptyFrame? with
  | none =>
    obtain ⟨f, hf⟩ := h
    exact absurd hf (not_lt.mpr (emptyFrame?_eq_none.mp hempty f))
  | some f =>
    refine ⟨f, ?_, by rw [findVictimFrame, hempty]⟩
    obtain ⟨hf, before, after, hlist, hbefore⟩ := List.find?_eq_some_iff_append.mp hempty
    refine ⟨of_decide_eq_true hf, fun g hg => ?_⟩
    -- a frame below `f` is passed over first
    by_contra hlt
    have hmem : g ∈ before ++ f :: after := hlist ▸ List.mem_finRange g
    have hsorted : (before ++ f :: after).Pairwise (· < ·) :=
      hlist ▸ List.pairwise_lt_finRange n
    rcases List.mem_append.mp hmem with hin | hin
    · have hfull : 0 ≤ (b.headers g).pageId := by simpa using hbefore g hin
      exact absurd hg (not_lt.mpr hfull)
    · rcases List.mem_cons.mp hin with rfl | hafter
      · exact hlt le_rfl
      · have hrel := (List.pairwise_append.mp hsorted).2.1
        exact hlt (List.rel_of_pairwise_cons hrel hafter).le

theorem exists_victim (h : ∃ f, (b.headers f).pageId < 0 ∨ (b.headers f).pinCount = 0) :
    ∃ f, b.findVictimFrame.2 = .ok f := by
  by_cases hempty : ∃ f, (b.headers f).pageId < 0
  · obtain ⟨f, -, hf⟩ := findVictimFrame_of_empty hempty
    exact ⟨f, hf⟩
  push Not at hempty
  by_cases hevict : ∃ f, (b.headers f).Evictable
  · obtain ⟨f, hf⟩ := exists_first hevict
    exact ⟨f, findVictimFrame_of_evictable hempty hf⟩
  · push Not at hevict
    have hpin : ∃ f, (b.headers f).pinCount = 0 :=
      h.imp fun f hf => hf.resolve_left (not_lt.mpr (hempty f))
    obtain ⟨f, hf⟩ := exists_first (P := (·.pinCount = 0)) hpin
    exact ⟨f, findVictimFrame_of_unpinned hempty hevict hf⟩

theorem pinned_of_error {e : StorageError} (h : b.findVictimFrame.2 = .error e) :
    ∀ f, 0 ≤ (b.headers f).pageId ∧ (b.headers f).pinCount ≠ 0 := by
  by_contra hfree
  obtain ⟨f, hf⟩ := not_forall.mp hfree
  obtain ⟨g, hg⟩ := exists_victim ⟨f, by rwa [not_and_or, not_le, not_not] at hf⟩
  rw [hg] at h
  cases h

/-- A frame is found unless all frames hold pinned pages: the lowest empty one, else the first to
evict in clock order, else the first that is not pinned. -/
theorem findVictimFrame_clock (b : BufferPool n) :
    (b.findVictimFrame.2 = .error .poolExhausted ↔
      ∀ f, 0 ≤ (b.headers f).pageId ∧ (b.headers f).pinCount ≠ 0) ∧
    (∀ e, b.findVictimFrame.2 = .error e → e = .poolExhausted) ∧
    ((∃ f, (b.headers f).pageId < 0) →
      ∃ f, IsLeast {f | (b.headers f).pageId < 0} f ∧ b.findVictimFrame.2 = .ok f) ∧
    ((∀ f, 0 ≤ (b.headers f).pageId) → (∃ f, (b.headers f).Evictable) →
      ∃ f, b.FirstInClockOrder FrameHeader.Evictable f ∧ b.findVictimFrame.2 = .ok f) ∧
    ((∀ f, 0 ≤ (b.headers f).pageId) → (∀ f, ¬ (b.headers f).Evictable) →
      (∃ f, (b.headers f).pinCount = 0) →
      ∃ f, b.FirstInClockOrder (·.pinCount = 0) f ∧ b.findVictimFrame.2 = .ok f) ∧
    ∀ f, (b.findVictimFrame.1.headers f).pageId = (b.headers f).pageId ∧
      (b.findVictimFrame.1.headers f).pinCount = (b.headers f).pinCount ∧
      (b.findVictimFrame.1.headers f).isDirty = (b.headers f).isDirty := by
  have hexhausted : (∀ f, 0 ≤ (b.headers f).pageId ∧ (b.headers f).pinCount ≠ 0) →
      b.findVictimFrame.2 = .error .poolExhausted := fun h =>
    findVictimFrame_of_pinned (fun f => (h f).1) fun f => (h f).2
  refine ⟨⟨pinned_of_error, hexhausted⟩, ?_, findVictimFrame_of_empty, ?_, ?_, ?_⟩
  · intro e he
    have hsame := hexhausted (pinned_of_error he)
    rw [he] at hsame
    exact Except.error.inj hsame
  · intro hfull hevict
    obtain ⟨f, hf⟩ := exists_first hevict
    exact ⟨f, hf, findVictimFrame_of_evictable hfull hf⟩
  · intro hfull hnone hpin
    obtain ⟨f, hf⟩ := exists_first (P := (·.pinCount = 0)) hpin
    exact ⟨f, hf, findVictimFrame_of_unpinned hfull hnone hf⟩
  · intro f
    have hswept := b.findVictimFrame_spec.1
    exact ⟨hswept.pageId f, hswept.pinCount f, hswept.isDirty f⟩

/-- A full pool whose hand stands before a pinned and a referenced page. -/
def mixedPool : BufferPool 3 :=
  { new { file := [], numPages := 0 } with
    headers := ![{ pageId := 4, pinCount := 1 }, { pageId := 7, refBit := true }, { pageId := 5 }] }

theorem findVictimFrame_clock_mixedPool :
    (∃ f, mixedPool.FirstInClockOrder FrameHeader.Evictable f ∧
      mixedPool.findVictimFrame.2 = .ok f) ∧ mixedPool.findVictimFrame.2 = .ok 2 :=
  ⟨(findVictimFrame_clock mixedPool).2.2.2.1 (by decide) ⟨2, rfl, rfl⟩, rfl⟩

end BufferPool

end PySQL.Storage
