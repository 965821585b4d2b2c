import Mathlib.Tactic

/-!
# Joins of two lists of rows

A join pairs the rows of two sides that match.  An outer join also keeps the rows of a side that
match nothing, each paired with a filler row.  Two joins give the same pairs, up to their order,
if and only if they give the same number of copies of each pair.
-/

namespace Lib

variable {α β : Type*}

/-- The pairs of a join; `keepLeft` and `keepRight` say which sides keep rows without a partner, and
`a₀` and `b₀` fill the side that is missing. -/
def joinPairs (M : α → β → Bool) (keepLeft keepRight : Bool) (a₀ : α) (b₀ : β) (l : List α)
    (r : List β) : List (α × β) :=
  (l.flatMap fun a => (r.filter (M a)).map (Prod.mk a) ++
    if keepLeft && !r.any (M a) then [(a, b₀)] else []) ++
  if keepRight then (r.filter fun b => !l.any (M · b)).map (Prod.mk a₀) else []

theorem mem_joinPairs {M : α → β → Bool} {keepLeft keepRight : Bool} {a₀ : α} {b₀ : β} {l : List α}
    {r : List β} {a : α} {b : β} : (a, b) ∈ joinPairs M keepLeft keepRight a₀ b₀ l r ↔
      (a ∈ l ∧ b ∈ r ∧ M a b = true) ∨ (keepLeft = true ∧ a ∈ l ∧ (∀ b' ∈ r, M a b' = false) ∧ b = b₀)
        ∨ (keepRight = true ∧ b ∈ r ∧ (∀ a' ∈ l, M a' b = false) ∧ a = a₀) := by
  rw [joinPairs, List.mem_append, List.mem_flatMap, ← or_assoc]
  refine or_congr ?_ ?_
  · constructor
    · rintro ⟨a', ha', hmem⟩
      rw [List.mem_append] at hmem
      rcases hmem with hmem | hmem
      · obtain ⟨b', hb', heq⟩ := List.mem_map.mp hmem
        obtain ⟨rfl, rfl⟩ := Prod.mk.inj heq
        exact .inl ⟨ha', List.mem_filter.mp hb'⟩
      · split at hmem
        · next hkeep =>
          obtain ⟨rfl, rfl⟩ := Prod.mk.inj (List.mem_singleton.mp hmem)
          exact .inr (by simpa [ha'] using hkeep)
        · cases hmem
    · rintro (⟨ha, hb, hM⟩ | ⟨hkeep, ha, hnone, rfl⟩)
      · exact ⟨a, ha, by simp [hb, hM]⟩
      · refine ⟨a, ha, List.mem_append_right _ ?_⟩
        have hany : r.any (M a) = false := List.any_eq_false.mpr fun b hb => by simp [hnone b hb]
        simp [hkeep, hany]
  · cases keepRight with
    | false => simp
    | true =>
      rw [if_pos rfl, List.mem_map]
      constructor
      · rintro ⟨b', hb', heq⟩
        obtain ⟨rfl, rfl⟩ := Prod.mk.inj heq
        simpa using List.mem_filter.mp hb'
      · rintro ⟨-, hb, hnone, rfl⟩
        exact ⟨b, List.mem_filter.mpr ⟨hb, by simpa using hnone⟩, rfl⟩

/-- The pairs that match, then the rows of each side that match nothing. -/
theorem joinPairs_perm (M : α → β → Bool) (keepLeft keepRight : Bool) (a₀ : α) (b₀ : β) (l : List α)
    (r : List β) : (joinPairs M keepLeft keepRight a₀ b₀ l r).Perm
      (((l ×ˢ r).filter fun p => M p.1 p.2) ++
        ((if keepLeft then (l.filter fun a => !r.any (M a)).map (·, b₀) else []) ++
          if keepRight then (r.filter fun b => !l.any (M · b)).map (Prod.mk a₀) else [])) := by
  have hmatches : (l.flatMap fun a => (r.filter (M a)).map (Prod.mk a)) =
      (l ×ˢ r).filter fun p => M p.1 p.2 := by
    show _ = (l.flatMap fun a => r.map (Prod.mk a)).filter _
    rw [List.filter_flatMap]
    refine List.flatMap_congr fun a _ => ?_
    rw [List.filter_map]
    rfl
  have hpadded : (l.flatMap fun a => if keepLeft && !r.any (M a) then [(a, b₀)] else []) =
      if keepLeft then (l.filter fun a => !r.any (M a)).map (·, b₀) else [] := by
    cases keepLeft with
    | false => simp
    | true =>
      clear hmatches
      induction l with
      | nil => rfl
      | cons a l ih =>
        rw [List.flatMap_cons, ih]
        cases hany : r.any (M a) <;> simp [hany]
  rw [joinPairs, ← List.append_assoc, ← hmatches, ← hpadded]
  exact (List.flatMap_append_perm l _ _).symm.append_right _

section Counting

variable [DecidableEq α] [DecidableEq β]

/-- How many copies of a pair a join gives: those of a match and those of a filled row. -/
def copies (M : α → β → Bool) (keepLeft keepRight : Bool) (a₀ : α) (b₀ : β) (l : List α)
    (r : List β) (a : α) (b : β) : ℕ :=
  (if M a b then l.count a * r.count b else 0) +
  (if keepLeft && !r.any (M a) && b = b₀ then l.count a else 0) +
  (if keepRight && !l.any (M · b) && a = a₀ then r.count b else 0)

theorem count_map_mk (a a' : α) (b : β) (r : List β) :
    (r.map (Prod.mk a')).count (a, b) = if a' = a then r.count b else 0 := by
  split
  · next h =>
    subst h
    exact List.count_map_of_injective r _ (Prod.mk_right_injective a') b
  · next h =>
    refine List.count_eq_zero.mpr fun hmem => ?_
    obtain ⟨b', -, heq⟩ := List.mem_map.mp hmem
    exact h (Prod.mk.inj heq).1

theorem count_filter_eq {γ : Type*} [BEq γ] [LawfulBEq γ] (p : γ → Bool) (b : γ) (r : List γ) :
    (r.filter p).count b = if p b then r.count b else 0 := by
  split
  · next h => exact List.count_filter h
  · next h => exact List.count_eq_zero.mpr fun hmem => h (List.mem_filter.mp hmem).2

variable {M N : α → β → Bool} {keepLeft keepRight keepLeft' keepRight' : Bool} {a₀ : α} {b₀ : β}
  {l : List α} {r : List β} {a : α} {b : β}

theorem count_flatMap_matches (M : α → β → Bool) (keepLeft : Bool) (b₀ : β) (r : List β) (a : α)
    (b : β) (l : List α) :
    (l.flatMap fun a => (r.filter (M a)).map (Prod.mk a) ++
        if keepLeft && !r.any (M a) then [(a, b₀)] else []).count (a, b) =
      (if M a b then l.count a * r.count b else 0) +
        if keepLeft && !r.any (M a) && b = b₀ then l.count a else 0 := by
  induction l with
  | nil => simp
  | cons a' l ih =>
    rw [List.flatMap_cons, List.count_append, ih, List.count_append, count_map_mk, count_filter_eq]
    by_cases ha : a' = a
    · subst ha
      have hpad : (if keepLeft && !r.any (M a') then [(a', b₀)] else []).count (a', b) =
          if keepLeft && !r.any (M a') && b = b₀ then 1 else 0 := by
        by_cases hb : b = b₀
        · cases keepLeft && !r.any (M a') <;> simp [hb]
        · cases keepLeft && !r.any (M a') <;> simp [hb, Ne.symm hb]
      rw [hpad, List.count_cons_self, if_pos rfl]
      split <;> split <;> ring
    · have hpad : (if keepLeft && !r.any (M a') then [(a', b₀)] else []).count (a, b) = 0 := by
        cases keepLeft && !r.any (M a') <;> simp [ha]
      rw [hpad, List.count_cons_of_ne ha, if_neg ha]
      ring

theorem count_joinPairs : (joinPairs M keepLeft keepRight a₀ b₀ l r).count (a, b) =
    copies M keepLeft keepRight a₀ b₀ l r a b := by
  rw [joinPairs, List.count_append, count_flatMap_matches, copies]
  congr 1
  cases keepRight with
  | false => simp
  | true =>
    rw [if_pos rfl, count_map_mk, count_filter_eq]
    by_cases ha : a₀ = a
    · simp [ha]
    · simp [ha, Ne.symm ha]

theorem joinPairs_perm_iff_copies :
    (joinPairs M keepLeft keepRight a₀ b₀ l r).Perm (joinPairs N keepLeft' keepRight' a₀ b₀ l r) ↔
      ∀ a b, copies M keepLeft keepRight a₀ b₀ l r a b =
        copies N keepLeft' keepRight' a₀ b₀ l r a b := by
  rw [List.perm_iff_count]
  constructor
  · intro h a b
    rw [← count_joinPairs, ← count_joinPairs, h]
  · rintro h ⟨a, b⟩
    rw [count_joinPairs, count_joinPairs, h]

theorem copies_of_mem (ha : a ∈ l) (hb : b ∈ r) (ha₀ : a₀ ∉ l) (hb₀ : b₀ ∉ r) :
    copies M keepLeft keepRight a₀ b₀ l r a b = if M a b then l.count a * r.count b else 0 := by
  have hane : a ≠ a₀ := fun h => ha₀ (h ▸ ha)
  have hbne : b ≠ b₀ := fun h => hb₀ (h ▸ hb)
  simp [copies, hane, hbne]

theorem copies_filler_left (hb : b ∈ r) (ha₀ : a₀ ∉ l) (hb₀ : b₀ ∉ r) :
    copies M keepLeft keepRight a₀ b₀ l r a₀ b =
      if keepRight && !l.any (M · b) then r.count b else 0 := by
  have hbne : b ≠ b₀ := fun h => hb₀ (h ▸ hb)
  simp [copies, hbne, List.count_eq_zero.mpr ha₀]

theorem copies_filler_right (ha : a ∈ l) (ha₀ : a₀ ∉ l) (hb₀ : b₀ ∉ r) :
    copies M keepLeft keepRight a₀ b₀ l r a b₀ =
      if keepLeft && !r.any (M a) then l.count a else 0 := by
  have hane : a ≠ a₀ := fun h => ha₀ (h ▸ ha)
  simp [copies, hane, List.count_eq_zero.mpr hb₀]

/-! ## Two ways to match -/

/-- The two joins match the same rows and, if only the second one keeps right rows without a partner,
there are none. -/
def Agree (M N : α → β → Bool) (keepRight : Bool) (l : List α) (r : List β) : Prop :=
  (∀ a ∈ l, ∀ b ∈ r, M a b = N a b) ∧ (keepRight = true → ∀ b ∈ r, ∃ a ∈ l, N a b = true)

theorem Agree.copies_eq (h : Agree M N keepRight l r) (a : α) (b : β) :
    copies M keepLeft false a₀ b₀ l r a b = copies N keepLeft keepRight a₀ b₀ l r a b := by
  obtain ⟨hmatch, hkeep⟩ := h
  have hboth : (if M a b then l.count a * r.count b else 0) =
      if N a b then l.count a * r.count b else 0 := by
    by_cases ha : a ∈ l
    · by_cases hb : b ∈ r
      · rw [hmatch a ha b hb]
      · simp [List.count_eq_zero.mpr hb]
    · simp [List.count_eq_zero.mpr ha]
  have hleft : (if keepLeft && !r.any (M a) && b = b₀ then l.count a else 0) =
      if keepLeft && !r.any (N a) && b = b₀ then l.count a else 0 := by
    by_cases ha : a ∈ l
    · have hany : r.any (M a) = r.any (N a) := by
        rw [Bool.eq_iff_iff, List.any_eq_true, List.any_eq_true]
        exact exists_congr fun b => and_congr_right fun hb => by rw [hmatch a ha b hb]
      rw [hany]
    · simp [List.count_eq_zero.mpr ha]
  have hright : (if keepRight && !l.any (N · b) && a = a₀ then r.count b else 0) = 0 := by
    cases hk : keepRight with
    | false => simp
    | true =>
      by_cases hb : b ∈ r
      · obtain ⟨a', ha', hN⟩ := hkeep hk b hb
        have hany : l.any (N · b) = true := List.any_eq_true.mpr ⟨a', ha', hN⟩
        simp [hany]
      · simp [List.count_eq_zero.mpr hb]
  rw [copies, copies, hboth, hleft, hright]
  simp

/-- Without a filler among the rows, joins with different matches agree only if the matches do. -/
theorem agree_of_copies_eq (ha₀ : a₀ ∉ l) (hb₀ : b₀ ∉ r)
    (h : ∀ a b, copies M keepLeft false a₀ b₀ l r a b = copies N keepLeft keepRight a₀ b₀ l r a b) :
    Agree M N keepRight l r := by
  constructor
  · intro a ha b hb
    have hcount := h a b
    rw [copies_of_mem ha hb ha₀ hb₀, copies_of_mem ha hb ha₀ hb₀] at hcount
    have hne : l.count a * r.count b ≠ 0 :=
      Nat.mul_ne_zero (List.count_pos_iff.mpr ha).ne' (List.count_pos_iff.mpr hb).ne'
    cases hM : M a b <;> cases hN : N a b
    · rfl
    · rw [hM, hN, if_neg (by simp), if_pos rfl] at hcount
      exact absurd hcount.symm hne
    · rw [hM, hN, if_pos rfl, if_neg (by simp)] at hcount
      exact absurd hcount hne
    · rfl
  · intro hkeep b hb
    have hcount := h a₀ b
    rw [copies_filler_left hb ha₀ hb₀, copies_filler_left hb ha₀ hb₀, hkeep] at hcount
    have hpos : r.count b ≠ 0 := (List.count_pos_iff.mpr hb).ne'
    by_contra hnone
    push Not at hnone
    have hany : l.any (N · b) = false := List.any_eq_false.mpr fun a ha => hnone a ha
    simp [hany] at hcount
    exact hpos hcount.symm

theorem joinPairs_perm_iff :
    (joinPairs M keepLeft false a₀ b₀ l r).Perm (joinPairs N keepLeft keepRight a₀ b₀ l r) ↔
      Agree M N keepRight l r ∨ ((a₀ ∈ l ∨ b₀ ∈ r) ∧ ∀ a b,
        copies M keepLeft false a₀ b₀ l r a b = copies N keepLeft keepRight a₀ b₀ l r a b) := by
  rw [joinPairs_perm_iff_copies]
  constructor
  · intro h
    by_cases hfill : a₀ ∈ l ∨ b₀ ∈ r
    · exact .inr ⟨hfill, h⟩
    · rw [not_or] at hfill
      exact .inl (agree_of_copies_eq hfill.1 hfill.2 h)
  · rintro (h | ⟨-, h⟩)
    · exact h.copies_eq
    · exact h

/-! ## Filtering before or after -/

variable {P : α → β → Bool} {p : α → Bool}

/-- Filtering the left side by `p` before the join does what filtering the pairs by `P` does after
it: `P` decides each pair, also a filled one, as `p` decides its left row; and a right row that is
kept without a partner neither loses all its partners nor is thrown out afterwards. -/
def FilterAgrees (M : α → β → Bool) (keepLeft keepRight : Bool) (a₀ : α) (b₀ : β) (l : List α)
    (r : List β) (P : α → β → Bool) (p : α → Bool) : Prop :=
  (∀ a ∈ l, ∀ b ∈ r, M a b = true → P a b = p a) ∧
  (keepLeft = true → ∀ a ∈ l, (∀ b ∈ r, M a b = false) → P a b₀ = p a) ∧
  (keepRight = true → ∀ b ∈ r, ((∃ a ∈ l, M a b = true) → ∃ a ∈ l, p a = true ∧ M a b = true) ∧
    ((∀ a ∈ l, M a b = false) → P a₀ b = true))

omit [DecidableEq α] [DecidableEq β] in
theorem any_filter_eq_false (h : l.any (M · b) = false) : (l.filter p).any (M · b) = false := by
  rw [List.any_eq_false] at h ⊢
  exact fun a ha => h a (List.mem_filter.mp ha).1

theorem FilterAgrees.copies_eq (h : FilterAgrees M keepLeft keepRight a₀ b₀ l r P p) (a : α) (b : β) :
    (if P a b then copies M keepLeft keepRight a₀ b₀ l r a b else 0) =
      copies M keepLeft keepRight a₀ b₀ (l.filter p) r a b := by
  obtain ⟨hmatch, hleft, hright⟩ := h
  have hboth : (if P a b then (if M a b then l.count a * r.count b else 0) else 0) =
      if M a b then (l.filter p).count a * r.count b else 0 := by
    rw [count_filter_eq]
    by_cases hM : M a b = true
    · by_cases hmem : a ∈ l ∧ b ∈ r
      · rw [hmatch a hmem.1 b hmem.2 hM]
        cases p a <;> simp [hM]
      · have hzero : l.count a * r.count b = 0 := by
          rw [Nat.mul_eq_zero, List.count_eq_zero, List.count_eq_zero]
          tauto
        cases p a <;> simp [hM, hzero]
    · simp [hM]
  have hpadLeft :
      (if P a b then (if keepLeft && !r.any (M a) && b = b₀ then l.count a else 0) else 0) =
        if keepLeft && !r.any (M a) && b = b₀ then (l.filter p).count a else 0 := by
    rw [count_filter_eq]
    by_cases hpad : (keepLeft && !r.any (M a) && b = b₀) = true
    · by_cases ha : a ∈ l
      · simp only [Bool.and_eq_true, Bool.not_eq_true', List.any_eq_false, decide_eq_true_eq] at hpad
        obtain ⟨⟨hkeep, hnone⟩, rfl⟩ := hpad
        rw [hleft hkeep a ha fun b' hb' => by simpa using hnone b' hb']
        cases p a <;> simp
      · cases p a <;> simp [List.count_eq_zero.mpr ha]
    · simp [hpad]
  have hpadRight :
      (if P a b then (if keepRight && !l.any (M · b) && a = a₀ then r.count b else 0) else 0) =
        if keepRight && !(l.filter p).any (M · b) && a = a₀ then r.count b else 0 := by
    by_cases hb : b ∈ r
    · by_cases hkeep : keepRight = true ∧ a = a₀
      · obtain ⟨hkeep, rfl⟩ := hkeep
        obtain ⟨hpartner, hkept⟩ := hright hkeep b hb
        cases hany : l.any (M · b) with
        | true =>
          -- the row keeps a partner
          obtain ⟨a', ha', hM⟩ := List.any_eq_true.mp hany
          obtain ⟨a'', ha'', hp, hM'⟩ := hpartner ⟨a', ha', hM⟩
          have hstill : (l.filter p).any (M · b) = true :=
            List.any_eq_true.mpr ⟨a'', List.mem_filter.mpr ⟨ha'', hp⟩, hM'⟩
          simp [hstill]
        | false =>
          have hP := hkept fun a' ha' => by simpa using List.any_eq_false.mp hany a' ha'
          simp [hP, any_filter_eq_false hany]
      · have hno : ∀ c : Bool, (keepRight && c && decide (a = a₀)) = false := by
          intro c
          cases keepRight <;> simp_all
        simp [hno]
    · simp [List.count_eq_zero.mpr hb]
  rw [copies, copies, ← hboth, ← hpadLeft, ← hpadRight]
  cases P a b <;> simp

theorem filterAgrees_of_copies_eq (ha₀ : a₀ ∉ l) (hb₀ : b₀ ∉ r)
    (h : ∀ a b, (if P a b then copies M keepLeft keepRight a₀ b₀ l r a b else 0) =
      copies M keepLeft keepRight a₀ b₀ (l.filter p) r a b) :
    FilterAgrees M keepLeft keepRight a₀ b₀ l r P p := by
  refine ⟨fun a ha b hb hM => ?_, fun hkeep a ha hnone => ?_, fun hkeep b hb => ?_⟩
  · have hcount := h a b
    have hane : a ≠ a₀ := fun h => ha₀ (h ▸ ha)
    have hbne : b ≠ b₀ := fun h => hb₀ (h ▸ hb)
    have hne : l.count a * r.count b ≠ 0 :=
      Nat.mul_ne_zero (List.count_pos_iff.mpr ha).ne' (List.count_pos_iff.mpr hb).ne'
    simp only [copies, count_filter_eq, hM, hane, hbne, decide_false, Bool.and_false, if_true,
      Bool.false_eq_true, if_false, Nat.add_zero] at hcount
    cases hP : P a b <;> cases hp : p a <;> simp_all
  · have hcount := h a b₀
    have hane : a ≠ a₀ := fun h => ha₀ (h ▸ ha)
    have hany : r.any (M a) = false := List.any_eq_false.mpr fun b hb => by simp [hnone b hb]
    have hne : l.count a ≠ 0 := (List.count_pos_iff.mpr ha).ne'
    simp only [copies, count_filter_eq, List.count_eq_zero.mpr hb₀, hane, hkeep, hany, Nat.mul_zero,
      ite_self, decide_false, Bool.and_false, Bool.not_false, Bool.and_self, decide_true, if_true,
      Bool.false_eq_true, Nat.add_zero, Nat.zero_add] at hcount
    cases hP : P a b₀ <;> cases hp : p a <;> simp_all
  · have hcount := h a₀ b
    have hbne : b ≠ b₀ := fun h => hb₀ (h ▸ hb)
    have hne : r.count b ≠ 0 := (List.count_pos_iff.mpr hb).ne'
    have hleft : ∀ l' : List α, a₀ ∉ l' → copies M keepLeft keepRight a₀ b₀ l' r a₀ b =
        if l'.any (M · b) then 0 else r.count b := by
      intro l' hl'
      rw [copies_filler_left hb hl' hb₀, hkeep]
      cases l'.any (M · b) <;> simp
    rw [hleft l ha₀, hleft (l.filter p) fun hmem => ha₀ (List.mem_filter.mp hmem).1] at hcount
    constructor
    · rintro ⟨a, ha, hM⟩
      have hany : l.any (M · b) = true := List.any_eq_true.mpr ⟨a, ha, hM⟩
      rw [hany, if_pos rfl, ite_self] at hcount
      have hstill : (l.filter p).any (M · b) = true := by
        by_contra hno
        rw [if_neg hno] at hcount
        exact hne hcount.symm
      obtain ⟨a', ha', hM'⟩ := List.any_eq_true.mp hstill
      exact ⟨a', (List.mem_filter.mp ha').1, (List.mem_filter.mp ha').2, hM'⟩
    · intro hnone
      have hany : l.any (M · b) = false := List.any_eq_false.mpr fun a ha => by simp [hnone a ha]
      rw [hany, any_filter_eq_false hany] at hcount
      by_contra hP
      rw [if_neg hP] at hcount
      exact hne hcount.symm

/-- Filtering the left side before a join is the same as filtering its pairs.  If a filler is a row
of its side, a pair that matches can look like a filled one, and the copies of each pair count. -/
def FilterCommutes (M : α → β → Bool) (keepLeft keepRight : Bool) (a₀ : α) (b₀ : β) (l : List α)
    (r : List β) (P : α → β → Bool) (p : α → Bool) : Prop :=
  FilterAgrees M keepLeft keepRight a₀ b₀ l r P p ∨ ((a₀ ∈ l ∨ b₀ ∈ r) ∧ ∀ a b,
    (if P a b then copies M keepLeft keepRight a₀ b₀ l r a b else 0) =
      copies M keepLeft keepRight a₀ b₀ (l.filter p) r a b)

theorem filter_joinPairs_perm_iff :
    ((joinPairs M keepLeft keepRight a₀ b₀ l r).filter fun q => P q.1 q.2).Perm
        (joinPairs M keepLeft keepRight a₀ b₀ (l.filter p) r) ↔
      FilterCommutes M keepLeft keepRight a₀ b₀ l r P p := by
  have hcounts : ((joinPairs M keepLeft keepRight a₀ b₀ l r).filter fun q => P q.1 q.2).Perm
      (joinPairs M keepLeft keepRight a₀ b₀ (l.filter p) r) ↔ ∀ a b,
        (if P a b then copies M keepLeft keepRight a₀ b₀ l r a b else 0) =
          copies M keepLeft keepRight a₀ b₀ (l.filter p) r a b := by
    rw [List.perm_iff_count, Prod.forall]
    refine forall_congr' fun a => forall_congr' fun b => ?_
    rw [count_filter_eq, count_joinPairs, count_joinPairs]
  rw [hcounts]
  constructor
  · intro h
    by_cases hfill : a₀ ∈ l ∨ b₀ ∈ r
    · exact .inr ⟨hfill, h⟩
    · rw [not_or] at hfill
      exact .inl (filterAgrees_of_copies_eq hfill.1 hfill.2 h)
  · rintro (h | ⟨-, h⟩)
    · exact h.copies_eq
    · exact h

/-! ## The other side -/

theorem copies_swap : copies (fun b a => M a b) keepRight keepLeft b₀ a₀ r l b a =
    copies M keepLeft keepRight a₀ b₀ l r a b := by
  rw [copies, copies, Nat.mul_comm, Nat.add_right_comm]

theorem joinPairs_swap_perm : ((joinPairs (fun b a => M a b) keepRight keepLeft b₀ a₀ r l).map
    Prod.swap).Perm (joinPairs M keepLeft keepRight a₀ b₀ l r) := by
  rw [List.perm_iff_count, Prod.forall]
  intro a b
  have hswap : (a, b) = Prod.swap (b, a) := rfl
  rw [count_joinPairs, ← copies_swap, ← count_joinPairs, hswap,
    List.count_map_of_injective _ _ Prod.swap_injective]

/-- Filtering the right side is filtering the left side of the join with its sides exchanged. -/
theorem filter_right_joinPairs_perm_iff {q : β → Bool} :
    ((joinPairs M keepLeft keepRight a₀ b₀ l r).filter fun c => P c.1 c.2).Perm
        (joinPairs M keepLeft keepRight a₀ b₀ l (r.filter q)) ↔
      FilterCommutes (fun b a => M a b) keepRight keepLeft b₀ a₀ r l (fun b a => P a b) q := by
  have hpairs : ((joinPairs (fun b a => M a b) keepRight keepLeft b₀ a₀ r l).map Prod.swap).Perm
      (joinPairs M keepLeft keepRight a₀ b₀ l r) := joinPairs_swap_perm
  have hswap := hpairs.filter fun c => P c.1 c.2
  rw [List.filter_map] at hswap
  rw [← filter_joinPairs_perm_iff]
  refine Iff.trans ?_ (List.map_perm_map_iff Prod.swap_injective)
  exact ⟨fun h => hswap.trans (h.trans joinPairs_swap_perm.symm),
    fun h => hswap.symm.trans (h.trans joinPairs_swap_perm)⟩

end Counting

end Lib
