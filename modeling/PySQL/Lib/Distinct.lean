import Mathlib.Tactic

/-!
# The first occurrences in a list

What stays of a list if an element is dropped as soon as an earlier one counts as equal to it.  An
element need not count as equal to itself.
-/

namespace Lib

variable {α : Type*} {E K : α → α → Bool} {l seen kept : List α} {x : α}

/-- The elements that neither one of `seen` nor an earlier one counts as equal to. -/
def firstsAfter (E : α → α → Bool) : List α → List α → List α
  | _, [] => []
  | seen, x :: xs =>
    if seen.any (E · x) then firstsAfter E (seen ++ [x]) xs
    else x :: firstsAfter E (seen ++ [x]) xs

/-- The first occurrences. -/
def firsts (E : α → α → Bool) (l : List α) : List α := firstsAfter E [] l

/-- What is equal to something is equal to itself. -/
structure PartialEquiv (E : α → α → Bool) : Prop where
  symm : ∀ {a b}, E a b = true → E b a = true
  trans : ∀ {a b c}, E a b = true → E b c = true → E a c = true

namespace PartialEquiv

theorem comm (h : PartialEquiv E) (a b : α) : E a b = E b a := by
  rw [Bool.eq_iff_iff]
  exact ⟨h.symm, h.symm⟩

theorem refl_of (h : PartialEquiv E) {a b : α} (hab : E a b = true) : E a a = true :=
  h.trans hab (h.symm hab)

end PartialEquiv

theorem firsts_sublist : (firstsAfter E seen l).Sublist l := by
  induction l generalizing seen with
  | nil => exact .slnil
  | cons x xs ih =>
    unfold firstsAfter
    split
    · exact .cons _ ih
    · exact ih.cons_cons _

/-- A loop that keeps what nothing kept so far counts as equal to. -/
theorem foldl_keep_eq (hK : PartialEquiv K) (hseen : ∀ y, kept.any (K · y) = seen.any (K · y)) :
    l.foldl (fun kept x => if kept.any (K · x) then kept else kept ++ [x]) kept =
      kept ++ firstsAfter K seen l := by
  induction l generalizing kept seen with
  | nil => exact (List.append_nil _).symm
  | cons x xs ih =>
    rw [List.foldl_cons, firstsAfter, hseen]
    split
    · next hx =>
      refine ih fun y => ?_
      rw [List.any_append, hseen y, Bool.eq_iff_iff]
      -- what `x` is equal to is equal to what `x` is equal to
      obtain ⟨z, hz, hzx⟩ := List.any_eq_true.mp hx
      have hthrough : K x y = true → seen.any (K · y) = true := fun hxy =>
        List.any_eq_true.mpr ⟨z, hz, hK.trans hzx hxy⟩
      simp only [List.any_cons, List.any_nil, Bool.or_false, Bool.or_eq_true]
      exact ⟨.inl, fun h => h.elim id hthrough⟩
    · have hboth : ∀ y, (kept ++ [x]).any (K · y) = (seen ++ [x]).any (K · y) := fun y => by
        rw [List.any_append, List.any_append, hseen y]
      rw [ih hboth, List.append_assoc, List.singleton_append]

theorem firsts_fresh : ∀ y ∈ firstsAfter E seen l, seen.any (E · y) = false := by
  induction l generalizing seen with
  | nil => exact fun y hy => nomatch hy
  | cons x xs ih =>
    have hrest : ∀ y ∈ firstsAfter E (seen ++ [x]) xs, seen.any (E · y) = false := by
      intro y hy
      have hfresh := ih y hy
      rw [List.any_append, Bool.or_eq_false_iff] at hfresh
      exact hfresh.1
    unfold firstsAfter
    split
    · exact hrest
    · next hx => exact List.forall_mem_cons.mpr ⟨by simpa using hx, hrest⟩

/-- No two first occurrences count as equal. -/
theorem pairwise_firsts : (firstsAfter E seen l).Pairwise fun a b => E a b = false := by
  induction l generalizing seen with
  | nil => exact .nil
  | cons x xs ih =>
    unfold firstsAfter
    split
    · exact ih
    · refine List.pairwise_cons.mpr ⟨fun y hy => ?_, ih⟩
      have hfresh := firsts_fresh y hy
      rw [List.any_append, Bool.or_eq_false_iff] at hfresh
      simpa using hfresh.2

/-- Every element that counts as equal to itself has a first occurrence. -/
theorem exists_firsts (hE : PartialEquiv E) (hx : x ∈ l) (hself : E x x = true) :
    seen.any (E · x) = true ∨ ∃ y ∈ firstsAfter E seen l, E y x = true := by
  induction l generalizing seen with
  | nil => cases hx
  | cons z zs ih =>
    unfold firstsAfter
    rcases List.mem_cons.mp hx with rfl | hx
    · split
      · next hseen => exact .inl hseen
      · exact .inr ⟨x, List.mem_cons_self, hself⟩
    · have hrest : (seen ++ [z]).any (E · x) = true ∨
          ∃ y ∈ firstsAfter E (seen ++ [z]) zs, E y x = true := ih hx
      rcases hrest with hold | ⟨y, hy, hyx⟩
      · rw [List.any_append, Bool.or_eq_true] at hold
        rcases hold with hold | hzx
        · exact .inl hold
        · replace hzx : E z x = true := by simpa using hzx
          split
          · next hz =>
            obtain ⟨w, hw, hwz⟩ := List.any_eq_true.mp hz
            exact .inl (List.any_eq_true.mpr ⟨w, hw, hE.trans hwz hzx⟩)
          · exact .inr ⟨z, List.mem_cons_self, hzx⟩
      · split
        · exact .inr ⟨y, hy, hyx⟩
        · exact .inr ⟨y, List.mem_cons_of_mem _ hy, hyx⟩

/-- An element has one first occurrence, or none if it does not even count as equal to itself. -/
theorem countP_firsts (hE : PartialEquiv E) (hx : x ∈ l) :
    (firsts E l).countP (E x) = 1 ↔ E x x = true := by
  constructor
  · intro hone
    obtain ⟨y, -, hxy⟩ := List.countP_pos_iff.mp (by omega : 0 < (firsts E l).countP (E x))
    exact hE.refl_of hxy
  · intro hself
    have hle : (firsts E l).countP (E x) ≤ 1 := by
      rw [List.countP_eq_length_filter]
      have hpair : ((firsts E l).filter (E x)).Pairwise fun a b => E a b = false :=
        pairwise_firsts.filter _
      have hall : ∀ y ∈ (firsts E l).filter (E x), E x y = true := fun y hy =>
        (List.mem_filter.mp hy).2
      generalize (firsts E l).filter (E x) = found at hpair hall
      rcases found with _ | ⟨a, _ | ⟨b, rest⟩⟩
      · exact Nat.zero_le _
      · exact le_rfl
      · -- two of them would count as equal to each other
        have hab : E a b = true :=
          hE.trans (hE.symm (hall a List.mem_cons_self)) (hall b (by simp))
        rw [(List.pairwise_cons.mp hpair).1 b List.mem_cons_self] at hab
        cases hab
    have hpos : 0 < (firsts E l).countP (E x) := by
      have hsome : ([] : List α).any (E · x) = true ∨ ∃ y ∈ firsts E l, E y x = true :=
        exists_firsts hE hx hself
      rcases hsome with hseen | ⟨y, hy, hyx⟩
      · cases hseen
      · exact List.countP_pos_iff.mpr ⟨y, hy, hE.symm hyx⟩
    omega

theorem length_firsts_le (hsub : ∀ a b, E a b = true → K a b = true) :
    (firstsAfter K seen l).length ≤ (firstsAfter E seen l).length := by
  induction l generalizing seen with
  | nil => rfl
  | cons x xs ih =>
    have hany : seen.any (E · x) = true → seen.any (K · x) = true := by
      intro h
      obtain ⟨s, hs, hsx⟩ := List.any_eq_true.mp h
      exact List.any_eq_true.mpr ⟨s, hs, hsub s x hsx⟩
    have hrest : (firstsAfter K (seen ++ [x]) xs).length ≤
        (firstsAfter E (seen ++ [x]) xs).length := ih
    unfold firstsAfter
    split
    · split
      · exact hrest
      · exact hrest.trans (Nat.le_succ _)
    · next hK =>
      rw [if_neg fun hE => hK (hany hE)]
      exact Nat.succ_le_succ hrest

/-- A coarser way to count as equal keeps the same elements if and only if it never tells two
elements equal that are not. -/
theorem firsts_eq_iff (hE : PartialEquiv E) (hK : PartialEquiv K)
    (hsub : ∀ a b, E a b = true → K a b = true)
    (hseen : seen.Pairwise fun a b => K a b = true → E a b = true) :
    firstsAfter K seen l = firstsAfter E seen l ↔
      (seen ++ l).Pairwise fun a b => K a b = true → E a b = true := by
  induction l generalizing seen with
  | nil => simpa [firstsAfter] using hseen
  | cons x xs ih =>
    have hstep : (∀ s ∈ seen, K s x = true → E s x = true) →
        (seen ++ [x]).Pairwise fun a b => K a b = true → E a b = true := by
      intro h
      refine List.pairwise_append.mpr ⟨hseen, List.pairwise_singleton _ _, fun s hs y hy => ?_⟩
      rw [List.mem_singleton.mp hy]
      exact h s hs
    have happend : seen ++ x :: xs = seen ++ [x] ++ xs := by simp
    rw [firstsAfter, firstsAfter, happend]
    by_cases hKx : seen.any (K · x) = true
    · rw [if_pos hKx]
      by_cases hEx : seen.any (E · x) = true
      · rw [if_pos hEx]
        refine ih (hstep fun s hs hsx => ?_)
        obtain ⟨e, he, hex⟩ := List.any_eq_true.mp hEx
        have hse : K s e = true := hK.trans hsx (hK.symm (hsub e x hex))
        by_cases heq : s = e
        · exact heq ▸ hex
        · have hsymm : Std.Symm fun a b => K a b = true → E a b = true :=
            ⟨fun a b h hba => hE.symm (h (hK.symm hba))⟩
          exact hE.trans (hseen.forall hs he heq hse) hex
      · rw [if_neg hEx]
        refine iff_of_false (fun heq => ?_) fun hpair => hEx ?_
        · have hlen : (firstsAfter K (seen ++ [x]) xs).length ≤
              (firstsAfter E (seen ++ [x]) xs).length := length_firsts_le hsub
          rw [heq, List.length_cons] at hlen
          omega
        · obtain ⟨s, hs, hsx⟩ := List.any_eq_true.mp hKx
          rw [List.append_assoc] at hpair
          exact List.any_eq_true.mpr ⟨s, hs,
            (List.pairwise_append.mp hpair).2.2 s hs x List.mem_cons_self hsx⟩
    · have hEx : ¬seen.any (E · x) = true := by
        intro h
        obtain ⟨s, hs, hsx⟩ := List.any_eq_true.mp h
        exact hKx (List.any_eq_true.mpr ⟨s, hs, hsub s x hsx⟩)
      rw [if_neg hKx, if_neg hEx, List.cons.injEq, and_iff_right rfl]
      exact ih (hstep fun s hs hsx => absurd (List.any_eq_true.mpr ⟨s, hs, hsx⟩) hKx)

end Lib
