import Mathlib.Tactic

/-!
# Stable sorts

A list is sorted stably by a rank if the ranks ascend and elements of one rank keep their order.
-/

namespace Lib

variable {α κ κ' : Type*} [LinearOrder κ] [LinearOrder κ'] {f : α → κ} {g : α → κ'}
  {l sorted : List α}

/-- The elements of the rank of `a`, in order. -/
def ofRank (f : α → κ) (a : α) (l : List α) : List α := l.filter fun b => f b = f a

/-- `sorted` is `l` sorted by `f`, and elements of one rank keep their order. -/
structure StablySorted (f : α → κ) (l sorted : List α) : Prop where
  perm : sorted.Perm l
  ascending : sorted.Pairwise fun a b => f a ≤ f b
  stable : ∀ a ∈ l, ofRank f a sorted = ofRank f a l

/-- A stable sort by rank. -/
def sortBy (f : α → κ) (l : List α) : List α := l.mergeSort fun a b => f a ≤ f b

theorem sortBy_perm (f : α → κ) (l : List α) : (sortBy f l).Perm l := List.mergeSort_perm _ _

theorem rank_trans (f : α → κ) (a b c : α) (hab : decide (f a ≤ f b) = true)
    (hbc : decide (f b ≤ f c) = true) : decide (f a ≤ f c) = true := by
  rw [decide_eq_true_eq] at hab hbc ⊢
  exact hab.trans hbc

theorem rank_total (f : α → κ) (a b : α) : (decide (f a ≤ f b) || decide (f b ≤ f a)) = true := by
  simpa using le_total (f a) (f b)

theorem ascending_sortBy (f : α → κ) (l : List α) :
    (sortBy f l).Pairwise fun a b => f a ≤ f b :=
  (List.pairwise_mergeSort (rank_trans f) (rank_total f) l).imp fun h => of_decide_eq_true h

theorem mem_ofRank {a b : α} : b ∈ ofRank f a l ↔ b ∈ l ∧ f b = f a := by
  simp [ofRank]

theorem ofRank_sortBy (f : α → κ) (l : List α) (a : α) :
    ofRank f a (sortBy f l) = ofRank f a l := by
  have hperm : (ofRank f a (sortBy f l)).Perm (ofRank f a l) := (sortBy_perm f l).filter _
  -- elements of one rank are in order already
  have hconst : (ofRank f a l).Pairwise fun b c => decide (f b ≤ f c) = true := by
    refine List.pairwise_of_forall_mem_list fun b hb c hc => ?_
    rw [(mem_ofRank.mp hb).2, (mem_ofRank.mp hc).2]
    exact decide_eq_true le_rfl
  have hsub : (ofRank f a l).Sublist (sortBy f l) :=
    List.sublist_mergeSort (rank_trans f) (rank_total f) hconst List.filter_sublist
  have hsub' : (ofRank f a l).Sublist (ofRank f a (sortBy f l)) := by
    have hfilter := hsub.filter fun b => decide (f b = f a)
    rwa [List.filter_eq_self.mpr fun b hb => decide_eq_true (mem_ofRank.mp hb).2] at hfilter
  exact (hsub'.eq_of_length hperm.length_eq.symm).symm

theorem stablySorted_sortBy (f : α → κ) (l : List α) : StablySorted f l (sortBy f l) :=
  ⟨sortBy_perm f l, ascending_sortBy f l, fun a _ => ofRank_sortBy f l a⟩

/-- The elements of any rank keep their order, also of a rank that no element has. -/
theorem StablySorted.ofRank_eq (h : StablySorted f l sorted) (a : α) :
    ofRank f a sorted = ofRank f a l := by
  by_cases hex : ∃ b ∈ l, f b = f a
  · obtain ⟨b, hb, hrank⟩ := hex
    have hb' := h.stable b hb
    rwa [ofRank, ofRank, hrank] at hb'
  · push Not at hex
    have hnone : ∀ l', l' ⊆ l → ofRank f a l' = [] := fun l' hsub =>
      List.filter_eq_nil_iff.mpr fun b hb => by simpa using hex b (hsub hb)
    rw [hnone _ h.perm.subset, hnone _ (List.Subset.refl l)]

/-- A list that ascends is known from the elements of each rank. -/
theorem eq_of_ofRank_eq {s s' : List α} (hs : s.Pairwise fun a b => f a ≤ f b)
    (hs' : s'.Pairwise fun a b => f a ≤ f b) (h : ∀ a, ofRank f a s = ofRank f a s') : s = s' := by
  have hmem : ∀ a, a ∈ s ↔ a ∈ s' := by
    intro a
    have ha := congrArg (a ∈ ·) (h a)
    simpa [mem_ofRank] using ha
  induction s generalizing s' with
  | nil =>
    cases s' with
    | nil => rfl
    | cons b s' => exact absurd ((hmem b).mpr List.mem_cons_self) List.not_mem_nil
  | cons a s ih =>
    cases s' with
    | nil => exact absurd ((hmem a).mp List.mem_cons_self) List.not_mem_nil
    | cons b s' =>
      rw [List.pairwise_cons] at hs hs'
      -- the heads have the least rank, so each is the first of its rank
      have hle : f a ≤ f b := by
        rcases List.mem_cons.mp ((hmem b).mpr List.mem_cons_self) with heq | hb
        · rw [heq]
        · exact hs.1 b hb
      have hge : f b ≤ f a := by
        rcases List.mem_cons.mp ((hmem a).mp List.mem_cons_self) with heq | ha
        · rw [heq]
        · exact hs'.1 a ha
      have hrank : f b = f a := le_antisymm hge hle
      have hfirst := h a
      simp only [ofRank, List.filter_cons, hrank, decide_true, if_true, List.cons.injEq] at hfirst
      obtain ⟨rfl, -⟩ := hfirst
      have htail : ∀ c, ofRank f c s = ofRank f c s' := by
        intro c
        have hc := h c
        by_cases hac : f a = f c
        · simpa [ofRank, hac] using hc
        · simpa [ofRank, hac] using hc
      have hmem' : ∀ c, c ∈ s ↔ c ∈ s' := by
        intro c
        have hc := congrArg (c ∈ ·) (htail c)
        simpa [mem_ofRank] using hc
      rw [ih hs.2 hs'.2 htail hmem']

/-- There is one stable sort. -/
theorem StablySorted.eq_sortBy (h : StablySorted f l sorted) : sorted = sortBy f l :=
  eq_of_ofRank_eq h.ascending (ascending_sortBy f l) fun a => by
    rw [h.ofRank_eq, ofRank_sortBy]

/-- A further element goes behind those up to its rank. -/
theorem StablySorted.insert {P Q : List α} {a : α} (h : StablySorted f l (P ++ Q))
    (hP : ∀ p ∈ P, f p ≤ f a) (hQ : ∀ q ∈ Q, f a < f q) :
    StablySorted f (l ++ [a]) (P ++ a :: Q) := by
  constructor
  case perm =>
    calc List.Perm (P ++ a :: Q) (a :: (P ++ Q)) := List.perm_middle
      List.Perm _ (a :: l) := h.perm.cons a
      List.Perm _ (l ++ [a]) := (List.perm_append_singleton a l).symm
  case ascending =>
    have hasc := h.ascending
    rw [List.pairwise_append] at hasc ⊢
    refine ⟨hasc.1, List.pairwise_cons.mpr ⟨fun q hq => (hQ q hq).le, hasc.2.1⟩, ?_⟩
    intro p hp q hq
    rcases List.mem_cons.mp hq with rfl | hq
    · exact hP p hp
    · exact hasc.2.2 p hp q hq
  case stable =>
    intro b _
    have hold := h.ofRank_eq b
    rw [ofRank, List.filter_append] at hold
    rw [ofRank, ofRank, List.filter_append, List.filter_append, List.filter_cons]
    by_cases hab : f a = f b
    · -- nothing behind it has its rank
      have hnone : Q.filter (fun q => f q = f b) = [] :=
        List.filter_eq_nil_iff.mpr fun q hq => by simpa [← hab] using (hQ q hq).ne'
      rw [hnone, List.append_nil] at hold
      rw [hnone, hold]
      simp [hab, ofRank]
    · rw [if_neg (by simpa using hab), hold]
      simp [hab, ofRank]

/-- Two ranks that have the same ties. -/
def SameTies (f : α → κ) (g : α → κ') (l : List α) : Prop :=
  ∀ a ∈ l, ∀ b ∈ l, f a = f b ↔ g a = g b

theorem SameTies.ofRank_eq (h : SameTies f g l) (hsub : sorted ⊆ l) {a : α} (ha : a ∈ l) :
    ofRank g a sorted = ofRank f a sorted := by
  refine List.filter_congr fun b hb => ?_
  rw [decide_eq_decide]
  exact (h b (hsub hb) a ha).symm

/-- In a list that ascends by `f` any two elements of different rank stand in the order of `f`. -/
theorem ascending_iff {sorted : List α} {P : α → α → Prop}
    (h : sorted.Pairwise fun a b => f a ≤ f b)
    (hties : ∀ a ∈ sorted, ∀ b ∈ sorted, f a = f b → P a b) :
    sorted.Pairwise P ↔ ∀ a ∈ sorted, ∀ b ∈ sorted, f a ≤ f b → P a b := by
  constructor
  · intro hP a ha b hb hle
    rcases hle.eq_or_lt with heq | hlt
    · exact hties a ha b hb heq
    have hsymm : Std.Symm fun a b => (f a ≤ f b ∧ P a b) ∨ (f b ≤ f a ∧ P b a) :=
      ⟨fun a b => Or.symm⟩
    have hne : a ≠ b := fun heq => hlt.ne (congrArg f heq)
    have hpair : sorted.Pairwise fun a b => (f a ≤ f b ∧ P a b) ∨ (f b ≤ f a ∧ P b a) :=
      (h.and hP).imp .inl
    rcases hpair.forall ha hb hne with hab | hba
    · exact hab.2
    · exact absurd hba.1 (not_le.mpr hlt)
  · intro hall
    refine (List.pairwise_iff_forall_sublist.mpr fun {a b} hsub => ?_)
    have hmem := hsub.subset
    exact hall a (hmem (by simp)) b (hmem (by simp)) (h.forall_sublist hsub)

/-- Sorting by `f` sorts by `g` if and only if `f` orders no two elements against `g`. -/
theorem stablySorted_sortBy_iff (hties : SameTies f g l) :
    StablySorted g l (sortBy f l) ↔ ∀ a ∈ l, ∀ b ∈ l, f a ≤ f b → g a ≤ g b := by
  have hperm := sortBy_perm f l
  have hiff := ascending_iff (P := fun a b => g a ≤ g b) (ascending_sortBy f l)
    fun a ha b hb heq => ((hties a (hperm.subset ha) b (hperm.subset hb)).mp heq).le
  simp only [hperm.mem_iff] at hiff
  rw [← hiff]
  constructor
  · exact StablySorted.ascending
  · intro hasc
    refine ⟨hperm, hasc, fun a ha => ?_⟩
    rw [hties.ofRank_eq hperm.subset ha, hties.ofRank_eq (List.Subset.refl l) ha]
    exact ofRank_sortBy f l a

/-- The list sorted by `f` read backwards is sorted by `g` if and only if `f` orders elements of
different rank the other way round, and the elements of one rank read the same backwards. -/
theorem stablySorted_reverse_sortBy_iff (hties : SameTies f g l) :
    StablySorted g l (sortBy f l).reverse ↔
      (∀ a ∈ l, ∀ b ∈ l, f b ≤ f a → g a ≤ g b) ∧
        ∀ a ∈ l, (ofRank f a l).reverse = ofRank f a l := by
  have hperm := sortBy_perm f l
  have hiff := ascending_iff (P := fun a b => g b ≤ g a) (ascending_sortBy f l)
    fun a ha b hb heq => ((hties a (hperm.subset ha) b (hperm.subset hb)).mp heq).ge
  simp only [hperm.mem_iff] at hiff
  have hback : (sortBy f l).reverse.Pairwise (fun a b => g a ≤ g b) ↔
      ∀ a ∈ l, ∀ b ∈ l, f b ≤ f a → g a ≤ g b := by
    rw [List.pairwise_reverse, hiff]
    exact ⟨fun h a ha b hb => h b hb a ha, fun h a ha b hb => h b hb a ha⟩
  have hrank : ∀ a ∈ l, ofRank g a (sortBy f l).reverse = ofRank g a l ↔
      (ofRank f a l).reverse = ofRank f a l := by
    intro a ha
    have hsub : (sortBy f l).reverse ⊆ l := fun b hb => hperm.subset (List.mem_reverse.mp hb)
    rw [hties.ofRank_eq hsub ha, hties.ofRank_eq (List.Subset.refl l) ha, ofRank,
      List.filter_reverse]
    show (ofRank f a (sortBy f l)).reverse = _ ↔ _
    rw [ofRank_sortBy]
  constructor
  · intro h
    exact ⟨hback.mp h.ascending, fun a ha => (hrank a ha).mp (h.stable a ha)⟩
  · rintro ⟨hasc, hpal⟩
    exact ⟨(List.reverse_perm _).trans hperm, hback.mpr hasc, fun a ha =>
      (hrank a ha).mpr (hpal a ha)⟩

end Lib
