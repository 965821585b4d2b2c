import Mathlib.Tactic

/-!
# Sorted finite maps

A map is the list of its pairs in ascending order of the keys, each key once.  Cut anywhere, what is
added or removed at the cut is added or removed in the list.
-/

namespace Lib

structure SortedMap (κ ν : Type) [LinearOrder κ] where
  items : List (κ × ν)
  sorted : items.Pairwise fun p q => p.1 < q.1

namespace SortedMap

variable {κ ν : Type} [LinearOrder κ]

@[ext] theorem ext {m m' : SortedMap κ ν} (h : m.items = m'.items) : m = m' := by
  cases m
  cases m'
  simp only at h
  subst h
  rfl

def empty : SortedMap κ ν := ⟨[], List.Pairwise.nil⟩

def get? (m : SortedMap κ ν) (k : κ) : Option ν := (m.items.find? (·.1 = k)).map Prod.snd

def size (m : SortedMap κ ν) : ℕ := m.items.length

def min? (m : SortedMap κ ν) : Option (κ × ν) := m.items.head?

def max? (m : SortedMap κ ν) : Option (κ × ν) := m.items.getLast?

/-- The pairs whose keys satisfy `P`, in ascending order. -/
def restrict (m : SortedMap κ ν) (P : κ → Bool) : SortedMap κ ν where
  items := m.items.filter fun p => P p.1
  sorted := m.sorted.filter _

@[simp] theorem items_restrict (m : SortedMap κ ν) (P : κ → Bool) :
    (m.restrict P).items = m.items.filter fun p => P p.1 := rfl

def erase (m : SortedMap κ ν) (k : κ) : SortedMap κ ν := m.restrict fun x => x ≠ k

def insert (m : SortedMap κ ν) (k : κ) (v : ν) : SortedMap κ ν where
  items := m.items.filter (fun p => p.1 < k) ++ (k, v) :: m.items.filter fun p => k < p.1
  sorted := by
    rw [List.pairwise_append, List.pairwise_cons]
    refine ⟨m.sorted.filter _, ⟨fun q hq => ?_, m.sorted.filter _⟩, fun p hp q hq => ?_⟩
    · exact of_decide_eq_true (List.mem_filter.mp hq).2
    · have hpk : p.1 < k := of_decide_eq_true (List.mem_filter.mp hp).2
      rcases List.mem_cons.mp hq with rfl | hq
      · exact hpk
      · exact hpk.trans (of_decide_eq_true (List.mem_filter.mp hq).2)

variable {m : SortedMap κ ν} {k k' : κ} {v : ν} {P Q : List (κ × ν)}

theorem get?_eq_some : m.get? k = some v ↔ (k, v) ∈ m.items := by
  rw [get?, Option.map_eq_some_iff]
  constructor
  · rintro ⟨p, hp, rfl⟩
    have hk : p.1 = k := by simpa using List.find?_some hp
    rw [← hk]
    exact List.mem_of_find?_eq_some hp
  · intro hmem
    obtain ⟨A, B, hcut⟩ := List.append_of_mem hmem
    have hsorted := m.sorted
    rw [hcut, List.pairwise_append] at hsorted
    refine ⟨(k, v), ?_, rfl⟩
    rw [hcut, List.find?_append, List.find?_eq_none.mpr]
    · simp
    · intro p hp
      simpa using (hsorted.2.2 p hp (k, v) List.mem_cons_self).ne

theorem get?_eq_none : m.get? k = none ↔ ∀ p ∈ m.items, p.1 ≠ k := by
  rw [get?, Option.map_eq_none_iff, List.find?_eq_none]
  simp

/-- What a lookup finds is what is at the cut. -/
theorem get?_of_cut (hm : m.items = P ++ (k, v) :: Q) : m.get? k = some v := by
  rw [get?_eq_some, hm]
  exact List.mem_append_right _ List.mem_cons_self

/-- A key is absent if the list is cut around it. -/
theorem get?_of_gap (hm : m.items = P ++ Q) (hP : ∀ p ∈ P, p.1 < k) (hQ : ∀ q ∈ Q, k < q.1) :
    m.get? k = none := by
  rw [get?_eq_none, hm]
  intro p hp
  rcases List.mem_append.mp hp with hp | hp
  · exact (hP p hp).ne
  · exact (hQ p hp).ne'

theorem insert_of_gap (hm : m.items = P ++ Q) (hP : ∀ p ∈ P, p.1 < k) (hQ : ∀ q ∈ Q, k < q.1) :
    (m.insert k v).items = P ++ (k, v) :: Q := by
  have hlow : P.filter (fun p => p.1 < k) = P ∧ Q.filter (fun p => p.1 < k) = [] := by
    constructor
    · exact List.filter_eq_self.mpr fun p hp => decide_eq_true (hP p hp)
    · exact List.filter_eq_nil_iff.mpr fun q hq => by simpa using (hQ q hq).le
  have hhigh : P.filter (fun p => k < p.1) = [] ∧ Q.filter (fun p => k < p.1) = Q := by
    constructor
    · exact List.filter_eq_nil_iff.mpr fun p hp => by simpa using (hP p hp).le
    · exact List.filter_eq_self.mpr fun q hq => decide_eq_true (hQ q hq)
  simp only [insert, hm, List.filter_append, hlow.1, hlow.2, hhigh.1, hhigh.2, List.append_nil,
    List.nil_append]

theorem erase_of_cut (hm : m.items = P ++ (k, v) :: Q) : (m.erase k).items = P ++ Q := by
  have hsorted := m.sorted
  rw [hm, List.pairwise_append, List.pairwise_cons] at hsorted
  have hP : P.filter (fun p => decide (p.1 ≠ k)) = P :=
    List.filter_eq_self.mpr fun p hp => by simpa using (hsorted.2.2 p hp _ List.mem_cons_self).ne
  have hQ : Q.filter (fun p => decide (p.1 ≠ k)) = Q :=
    List.filter_eq_self.mpr fun q hq => by simpa using (hsorted.2.1.1 q hq).ne'
  simp only [erase, restrict, hm, List.filter_append, List.filter_cons, hP, hQ]
  simp

/-! ## What insertion and removal mean -/

theorem get?_insert : (m.insert k v).get? k' = if k' = k then some v else m.get? k' := by
  split
  · next heq =>
    rw [heq]
    exact get?_of_cut rfl
  · next hne =>
    have hiff : ∀ w, (m.insert k v).get? k' = some w ↔ m.get? k' = some w := by
      intro w
      rw [get?_eq_some, get?_eq_some]
      simp only [insert, List.mem_append, List.mem_filter, List.mem_cons, Prod.mk.injEq,
        decide_eq_true_eq]
      constructor
      · rintro (⟨hin, -⟩ | ⟨heq, -⟩ | ⟨hin, -⟩)
        · exact hin
        · exact absurd heq hne
        · exact hin
      · intro hin
        rcases lt_or_gt_of_ne hne with hlt | hgt
        · exact .inl ⟨hin, hlt⟩
        · exact .inr (.inr ⟨hin, hgt⟩)
    exact Option.ext hiff

theorem get?_erase : (m.erase k).get? k' = if k' = k then none else m.get? k' := by
  split
  · next heq =>
    rw [get?_eq_none, heq]
    intro p hp
    simpa [erase, restrict] using (List.mem_filter.mp hp).2
  · next hne =>
    refine Option.ext fun w => ?_
    rw [get?_eq_some, get?_eq_some]
    simp [erase, restrict, hne]

end SortedMap

end Lib
