import PySQL.Lib.Dict

/-!
# Loops over the entries of a dictionary

A sweep visits some keys of a dictionary, each with an argument of its own, replaces the value under
each, and ends at the first key that is missing or whose turn fails.
-/

namespace Lib

variable {κ ν α : Type*} [DecidableEq κ]

/-- The elements of a list up to the first that `ok` rejects, with that one. -/
def upTo (ok : α → Bool) : List α → List α
  | [] => []
  | x :: xs => if ok x then x :: upTo ok xs else [x]

theorem upTo_sublist (ok : α → Bool) (xs : List α) : (upTo ok xs).Sublist xs := by
  induction xs with
  | nil => exact List.Sublist.slnil
  | cons x xs ih =>
    unfold upTo
    split
    · exact ih.cons_cons x
    · exact (List.nil_sublist xs).cons_cons x

theorem upTo_subset (ok : α → Bool) (xs : List α) : upTo ok xs ⊆ xs := (upTo_sublist ok xs).subset

theorem upTo_eq_self {ok : α → Bool} {xs : List α} (h : ∀ x ∈ xs, ok x = true) :
    upTo ok xs = xs := by
  induction xs with
  | nil => rfl
  | cons x xs ih =>
    rw [upTo, if_pos (h x (by simp)), ih fun y hy => h y (by simp [hy])]

theorem upTo_congr {ok ok' : α → Bool} {xs : List α} (h : ∀ x ∈ xs, ok x = ok' x) :
    upTo ok xs = upTo ok' xs := by
  induction xs with
  | nil => rfl
  | cons x xs ih =>
    rw [upTo, upTo, h x (by simp), ih fun y hy => h y (by simp [hy])]

/-- A list with a rejected element is cut after the first one. -/
theorem upTo_split {ok : α → Bool} {xs : List α} (h : ∃ x ∈ xs, ok x = false) :
    ∃ l x r, xs = l ++ x :: r ∧ (∀ y ∈ l, ok y = true) ∧ ok x = false ∧ upTo ok xs = l ++ [x] := by
  induction xs with
  | nil => simp at h
  | cons x xs ih =>
    by_cases hx : ok x = true
    · obtain ⟨z, hz, hbad⟩ := h
      have hrest : ∃ x ∈ xs, ok x = false := by
        rcases List.mem_cons.mp hz with rfl | hz
        · rw [hx] at hbad
          cases hbad
        · exact ⟨z, hz, hbad⟩
      obtain ⟨l, y, r, hsplit, hl, hy, hcut⟩ := ih hrest
      refine ⟨x :: l, y, r, by rw [hsplit]; rfl, ?_, hy, by rw [upTo, if_pos hx, hcut]; rfl⟩
      intro z hz
      rcases List.mem_cons.mp hz with rfl | hz
      · exact hx
      · exact hl z hz
    · exact ⟨[], x, xs, rfl, by simp, by simpa using hx, by rw [upTo, if_neg hx]; rfl⟩

namespace Dict

variable (f : α → ν → ν × Bool)

def sweep : List (κ × α) → Dict κ ν → Dict κ ν × Bool
  | [], d => (d, true)
  | (k, a) :: rest, d =>
    match d.get? k with
    | none => (d, false)
    | some v => if (f a v).2 then sweep rest (d.set k (f a v).1) else (d.set k (f a v).1, false)

/-- The key is there and its turn does not fail. -/
def accepts (d : Dict κ ν) (p : κ × α) : Bool := (d.get? p.1).any fun v => (f p.2 v).2

/-- The entry under `k` after the turn that a list of keys and arguments gives it, if it does. -/
def turn (d : Dict κ ν) (l : List (κ × α)) (k : κ) : Option ν :=
  (lookup k l).elim (d.get? k) fun a => (d.get? k).map fun v => (f a v).1

theorem nodup_keys (d : Dict κ ν) : d.keys.Nodup := d.nodup

theorem keys_set {d : Dict κ ν} {k : κ} {v w : ν} (h : d.get? k = some v) :
    (d.set k w).keys = d.keys := by
  rw [set_eq_map h]
  simp [keys, map]

variable {f} {d : Dict κ ν} {l : List (κ × α)}

theorem keys_sweep : (sweep f l d).1.keys = d.keys := by
  induction l generalizing d with
  | nil => rfl
  | cons p rest ih =>
    unfold sweep
    split
    · rfl
    · next v hv =>
      split
      · rw [ih, keys_set hv]
      · exact keys_set hv

/-- With distinct keys, no turn changes what another one finds. -/
theorem accepts_set {k : κ} {v : ν} {p : κ × α} (h : k ≠ p.1) :
    accepts f (d.set k v) p = accepts f d p := by
  rw [accepts, accepts, get?_set_ne _ _ h]

theorem sweep_snd (h : (l.map Prod.fst).Nodup) : (sweep f l d).2 = l.all (accepts f d) := by
  induction l generalizing d with
  | nil => rfl
  | cons p rest ih =>
    rw [List.map_cons, List.nodup_cons] at h
    rw [List.all_cons]
    unfold sweep
    split
    · next hnone => simp [accepts, hnone]
    · next v hv =>
      have hp : accepts f d p = (f p.2 v).2 := by simp [accepts, hv]
      split
      · next hok =>
        rw [ih h.2, hp, hok, Bool.true_and]
        rw [Bool.eq_iff_iff, List.all_eq_true, List.all_eq_true]
        refine forall₂_congr fun q hq => ?_
        have hne : p.1 ≠ q.1 := fun hk => h.1 (hk ▸ List.mem_map_of_mem hq)
        rw [accepts_set hne]
      · next hfail => simp [hp, hfail]

theorem lookup_cons (k : κ) (p : κ × α) (l : List (κ × α)) :
    lookup k (p :: l) = if p.1 = k then some p.2 else lookup k l := rfl

theorem mem_of_lookup {k : κ} {a : α} (h : lookup k l = some a) : (k, a) ∈ l := by
  induction l with
  | nil => cases h
  | cons p rest ih =>
    rw [lookup_cons] at h
    split at h
    · next hk =>
      cases h
      rw [← hk]
      exact List.mem_cons_self
    · exact List.mem_cons_of_mem _ (ih h)

/-- After a sweep over distinct keys, the keys up to the first failure have had their turns. -/
theorem get?_sweep (h : (l.map Prod.fst).Nodup) (k : κ) :
    (sweep f l d).1.get? k = turn f d (upTo (accepts f d) l) k := by
  induction l generalizing d with
  | nil => rfl
  | cons p rest ih =>
    rw [List.map_cons, List.nodup_cons] at h
    unfold sweep
    split
    · next hnone =>
      have hp : accepts f d p = false := by simp [accepts, hnone]
      rw [upTo, if_neg (by simp [hp]), turn, lookup_cons]
      by_cases hk : p.1 = k
      · subst hk
        simp [hnone]
      · simp [hk, lookup]
    · next v hv =>
      have hp : accepts f d p = (f p.2 v).2 := by simp [accepts, hv]
      split
      · next hok =>
        have hcongr : upTo (accepts f (d.set p.1 (f p.2 v).1)) rest = upTo (accepts f d) rest :=
          upTo_congr fun q hq => accepts_set fun hk => h.1 (hk ▸ List.mem_map_of_mem hq)
        rw [ih h.2, hcongr, upTo, hp, hok, if_pos rfl, turn, turn, lookup_cons]
        by_cases hk : p.1 = k
        · -- the key does not come up again
          subst hk
          have hout : lookup p.1 (upTo (accepts f d) rest) = none := by
            apply lookup_eq_none_of_not_mem
            intro hmem
            exact h.1 (List.map_subset _ (upTo_subset _ _) hmem)
          simp [hout, hv]
        · rw [get?_set_ne _ _ hk, if_neg hk]
      · next hfail =>
        have hp' : accepts f d p = false := by rw [hp]; simpa using hfail
        rw [upTo, if_neg (by simp [hp']), turn, lookup_cons, get?_set]
        by_cases hk : p.1 = k
        · subst hk
          simp [hv]
        · simp [hk, lookup]

end Dict

end Lib
