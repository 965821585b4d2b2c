import PySQL.Lib.Distinct

/-!
# Groups by key

A list of groups that grows one element at a time, as a dictionary of lists does.  A key need not
count as equal to itself: such a key has a group of its own for every element.
-/

namespace Lib

variable {κ α : Type*} {E : κ → κ → Bool} {key : κ} {x : α} {groups : List (κ × List α)}
  {keyed : List (κ × α)}

/-- Put an element into the group of its key. -/
def insertGroup (E : κ → κ → Bool) (key : κ) (x : α) : List (κ × List α) → List (κ × List α)
  | [] => [(key, [x])]
  | (k, xs) :: rest => if E k key then (k, xs ++ [x]) :: rest else (k, xs) :: insertGroup E key x rest

/-- The groups of a list of elements with keys: one for each key, in the order in which the keys
come, with every element in one of them, and in each group the elements that have its key. -/
structure Grouped (E : κ → κ → Bool) (keyed : List (κ × α)) (groups : List (κ × List α)) : Prop where
  keys : groups.map Prod.fst = firsts E (keyed.map Prod.fst)
  once : (groups.flatMap Prod.snd).Perm (keyed.map Prod.snd)
  members : ∀ g ∈ groups, E g.1 g.1 = true →
    g.2 = (keyed.filter fun p => E g.1 p.1).map Prod.snd
  alone : ∀ g ∈ groups, E g.1 g.1 = false → ∃ x, (g.1, x) ∈ keyed ∧ g.2 = [x]

/-! ## First occurrences of a longer list -/

theorem firstsAfter_concat {seen l : List κ} {x : κ} : firstsAfter E seen (l ++ [x]) =
    if (seen ++ l).any (E · x) then firstsAfter E seen l else firstsAfter E seen l ++ [x] := by
  induction l generalizing seen with
  | nil =>
    rw [List.append_nil]
    rfl
  | cons y l ih =>
    have hseen : seen ++ y :: l = seen ++ [y] ++ l := by simp
    rw [List.cons_append, firstsAfter, firstsAfter, ih, hseen]
    by_cases hy : seen.any (E · y) = true
    · rw [if_pos hy, if_pos hy]
    · rw [if_neg hy, if_neg hy]
      split <;> rfl

theorem firsts_concat {l : List κ} {x : κ} : firsts E (l ++ [x]) =
    if l.any (E · x) then firsts E l else firsts E l ++ [x] := firstsAfter_concat

/-- What an element of the list equals, a first occurrence equals. -/
theorem any_firsts (hE : PartialEquiv E) {l : List κ} {x : κ} :
    (firsts E l).any (E · x) = l.any (E · x) := by
  rw [Bool.eq_iff_iff, List.any_eq_true, List.any_eq_true]
  constructor
  · rintro ⟨y, hy, hyx⟩
    exact ⟨y, firsts_sublist.subset hy, hyx⟩
  · rintro ⟨y, hy, hyx⟩
    have hfound : ([] : List κ).any (E · y) = true ∨ ∃ z ∈ firsts E l, E z y = true :=
      exists_firsts hE hy (hE.refl_of hyx)
    rcases hfound with hseen | ⟨z, hz, hzy⟩
    · cases hseen
    · exact ⟨z, hz, hE.trans hzy hyx⟩

/-! ## One more element -/

theorem keys_insertGroup : (insertGroup E key x groups).map Prod.fst =
    if (groups.map Prod.fst).any (E · key) then groups.map Prod.fst
    else groups.map Prod.fst ++ [key] := by
  induction groups with
  | nil => rfl
  | cons g groups ih =>
    obtain ⟨k, xs⟩ := g
    rw [insertGroup]
    by_cases hk : E k key = true
    · simp [hk]
    · rw [if_neg hk, List.map_cons, ih]
      simp only [List.map_cons, List.any_cons, Bool.eq_false_iff.mpr hk, Bool.false_or]
      split <;> rfl

theorem elements_insertGroup :
    ((insertGroup E key x groups).flatMap Prod.snd).Perm (groups.flatMap Prod.snd ++ [x]) := by
  induction groups with
  | nil => exact .refl _
  | cons g groups ih =>
    obtain ⟨k, xs⟩ := g
    rw [insertGroup]
    split
    · simp only [List.flatMap_cons, List.append_assoc]
      exact List.Perm.append_left _ List.perm_append_comm
    · simp only [List.flatMap_cons, List.append_assoc]
      exact List.Perm.append_left _ ih

/-- A group afterwards is the group of the key, now with the element, or an old group of another
key, or a new one of a key that no group had. -/
theorem mem_insertGroup (hE : PartialEquiv E)
    (hdistinct : (groups.map Prod.fst).Pairwise fun a b => E a b = false) {g : κ × List α}
    (hg : g ∈ insertGroup E key x groups) :
    (∃ xs, (g.1, xs) ∈ groups ∧ E g.1 key = true ∧ g.2 = xs ++ [x]) ∨
      (g ∈ groups ∧ E g.1 key = false) ∨
      (g = (key, [x]) ∧ ∀ k ∈ groups.map Prod.fst, E k key = false) := by
  induction groups with
  | nil => exact .inr (.inr ⟨List.mem_singleton.mp hg, fun k hk => nomatch hk⟩)
  | cons first groups ih =>
    obtain ⟨k, xs⟩ := first
    rw [List.map_cons, List.pairwise_cons] at hdistinct
    rw [insertGroup] at hg
    by_cases hk : E k key = true
    · rw [if_pos hk] at hg
      rcases List.mem_cons.mp hg with rfl | hg
      · exact .inl ⟨xs, List.mem_cons_self, hk, rfl⟩
      · -- a later group has another key
        refine .inr (.inl ⟨List.mem_cons_of_mem _ hg, ?_⟩)
        have hne := hdistinct.1 g.1 (List.mem_map_of_mem hg)
        by_contra hg'
        have hkg := hE.trans hk (hE.symm (Bool.not_eq_false _ ▸ hg'))
        rw [hne] at hkg
        cases hkg
    · have hk' : E k key = false := Bool.eq_false_iff.mpr hk
      rw [if_neg hk] at hg
      rcases List.mem_cons.mp hg with rfl | hg
      · exact .inr (.inl ⟨List.mem_cons_self, hk'⟩)
      · rcases ih hdistinct.2 hg with ⟨ys, hmem, hkey, heq⟩ | ⟨hmem, hkey⟩ | ⟨heq, hnone⟩
        · exact .inl ⟨ys, List.mem_cons_of_mem _ hmem, hkey, heq⟩
        · exact .inr (.inl ⟨List.mem_cons_of_mem _ hmem, hkey⟩)
        · exact .inr (.inr ⟨heq, List.forall_mem_cons.mpr ⟨hk', hnone⟩⟩)

theorem Grouped.insert (hE : PartialEquiv E) (h : Grouped E keyed groups) :
    Grouped E (keyed ++ [(key, x)]) (insertGroup E key x groups) := by
  have hany : (groups.map Prod.fst).any (E · key) = (keyed.map Prod.fst).any (E · key) := by
    rw [h.keys, any_firsts hE]
  have hdistinct : (groups.map Prod.fst).Pairwise fun a b => E a b = false := by
    rw [h.keys]
    exact pairwise_firsts
  constructor
  · rw [keys_insertGroup, hany, h.keys, List.map_append]
    exact firsts_concat.symm
  · rw [List.map_append]
    exact elements_insertGroup.trans (h.once.append_right _)
  · intro g hg hself
    rcases mem_insertGroup hE hdistinct hg with ⟨xs, hmem, hkey, heq⟩ | ⟨hmem, hkey⟩ | ⟨rfl, hnone⟩
    · have hold : xs = (keyed.filter fun p => E g.1 p.1).map Prod.snd := h.members _ hmem hself
      rw [heq, hold]
      simp [hkey]
    · rw [h.members g hmem hself]
      simp [hkey]
    · -- none of the elements before has the new key
      have hnil : (keyed.filter fun p => E key p.1) = [] := by
        refine List.filter_eq_nil_iff.mpr fun p hp hkp => ?_
        have hold : (keyed.map Prod.fst).any (E · key) = true :=
          List.any_eq_true.mpr ⟨p.1, List.mem_map_of_mem hp, hE.symm hkp⟩
        rw [← hany] at hold
        obtain ⟨k, hk, hkk⟩ := List.any_eq_true.mp hold
        rw [hnone k hk] at hkk
        cases hkk
      rw [List.filter_append, hnil]
      simp [hself]
  · intro g hg hself
    rcases mem_insertGroup hE hdistinct hg with ⟨xs, -, hkey, -⟩ | ⟨hmem, -⟩ | ⟨rfl, -⟩
    · rw [hE.refl_of hkey] at hself
      cases hself
    · obtain ⟨y, hy, heq⟩ := h.alone g hmem hself
      exact ⟨y, List.mem_append_left _ hy, heq⟩
    · exact ⟨x, List.mem_append_right _ (List.mem_singleton_self _), rfl⟩

/-- A loop that inserts the elements one after the other groups them. -/
theorem grouped_foldl (hE : PartialEquiv E) (keyed : List (κ × α)) :
    Grouped E keyed (keyed.foldl (fun groups p => insertGroup E p.1 p.2 groups) []) := by
  induction keyed using List.reverseRecOn with
  | nil => exact ⟨rfl, .refl _, (fun g hg => nomatch hg), fun g hg => nomatch hg⟩
  | append_singleton keyed p ih =>
    rw [List.foldl_append]
    exact ih.insert hE

end Lib
