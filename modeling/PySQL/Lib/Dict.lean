import Mathlib.Tactic

/-!
# Insertion-ordered dictionaries

A dictionary keeps its items in the order their keys were first stored: storing under a present
key overwrites in place, storing under a new key appends, and removing keeps the order of the rest.
-/

namespace Lib

structure Dict (κ ν : Type*) where
  items : List (κ × ν)
  nodup : (items.map Prod.fst).Nodup

namespace Dict

variable {κ ν ν' : Type*}

def empty : Dict κ ν := ⟨[], List.nodup_nil⟩

def keys (d : Dict κ ν) : List κ := d.items.map Prod.fst

def values (d : Dict κ ν) : List ν := d.items.map Prod.snd

def size (d : Dict κ ν) : ℕ := d.items.length

/-- Rebuild every value, dropping the keys for which `f` gives none. -/
def filterMap (d : Dict κ ν) (f : κ → ν → Option ν') : Dict κ ν' where
  items := d.items.filterMap fun p => (f p.1 p.2).map (p.1, ·)
  nodup := by
    refine List.Nodup.sublist ?_ d.nodup
    induction d.items with
    | nil => exact List.Sublist.slnil
    | cons p ps ih =>
      cases hf : f p.1 p.2 with
      | none => simpa [List.filterMap_cons, hf] using ih.cons _
      | some w => simpa [List.filterMap_cons, hf] using ih

def map (d : Dict κ ν) (f : κ → ν → ν') : Dict κ ν' where
  items := d.items.map fun p => (p.1, f p.1 p.2)
  nodup := by simpa [List.map_map, Function.comp_def] using d.nodup

variable [DecidableEq κ]

def lookup (k : κ) : List (κ × ν) → Option ν
  | [] => none
  | p :: ps => if p.1 = k then some p.2 else lookup k ps

def get? (d : Dict κ ν) (k : κ) : Option ν := lookup k d.items

def store (k : κ) (v : ν) : List (κ × ν) → List (κ × ν)
  | [] => [(k, v)]
  | p :: ps => if p.1 = k then (k, v) :: ps else p :: store k v ps

theorem mem_keys_store {k k' : κ} {v : ν} {ps : List (κ × ν)} :
    k' ∈ (store k v ps).map Prod.fst ↔ k' = k ∨ k' ∈ ps.map Prod.fst := by
  induction ps with
  | nil => simp [store]
  | cons p ps ih =>
    by_cases hp : p.1 = k
    · simp [store, hp]
    · simp only [store, if_neg hp, List.map_cons, List.mem_cons, ih]
      tauto

theorem nodup_store {k : κ} {v : ν} {ps : List (κ × ν)} (h : (ps.map Prod.fst).Nodup) :
    ((store k v ps).map Prod.fst).Nodup := by
  induction ps with
  | nil => simp [store]
  | cons p ps ih =>
    rw [List.map_cons, List.nodup_cons] at h
    by_cases hp : p.1 = k
    · subst hp
      simpa only [store, if_true, List.map_cons, List.nodup_cons] using h
    · simp only [store, if_neg hp, List.map_cons, List.nodup_cons]
      exact ⟨fun hm => (mem_keys_store.mp hm).elim hp h.1, ih h.2⟩

theorem store_of_not_mem {k : κ} {v : ν} {ps : List (κ × ν)} (h : k ∉ ps.map Prod.fst) :
    store k v ps = ps ++ [(k, v)] := by
  induction ps with
  | nil => rfl
  | cons p ps ih =>
    rw [List.map_cons, List.mem_cons, not_or] at h
    rw [store, if_neg (Ne.symm h.1), ih h.2, List.cons_append]

theorem lookup_eq_some_of_mem {k : κ} {v : ν} {ps : List (κ × ν)} (h : (ps.map Prod.fst).Nodup)
    (hmem : (k, v) ∈ ps) : lookup k ps = some v := by
  induction ps with
  | nil => cases hmem
  | cons p ps ih =>
    rw [List.map_cons, List.nodup_cons] at h
    rcases List.mem_cons.mp hmem with rfl | hmem
    · exact if_pos rfl
    · have hne : p.1 ≠ k := fun hp => h.1 (hp ▸ List.mem_map_of_mem hmem)
      rw [lookup, if_neg hne, ih h.2 hmem]

def set (d : Dict κ ν) (k : κ) (v : ν) : Dict κ ν := ⟨store k v d.items, nodup_store d.nodup⟩

def erase (d : Dict κ ν) (k : κ) : Dict κ ν where
  items := d.items.filter fun p => p.1 ≠ k
  nodup := d.nodup.sublist (List.filter_sublist.map _)

@[simp] theorem get?_empty (k : κ) : (empty : Dict κ ν).get? k = none := rfl

theorem lookup_store (k k' : κ) (v : ν) (ps : List (κ × ν)) :
    lookup k' (store k v ps) = if k = k' then some v else lookup k' ps := by
  induction ps with
  | nil => simp [store, lookup]
  | cons p ps ih =>
    by_cases hp : p.1 = k
    · subst hp
      by_cases hk : p.1 = k' <;> simp [store, lookup, hk]
    · simp only [store, if_neg hp, lookup, ih]
      by_cases hk : p.1 = k'
      · simp [hk, show k ≠ k' from fun h => hp (hk.trans h.symm)]
      · simp [hk]

theorem get?_set (d : Dict κ ν) (k k' : κ) (v : ν) :
    (d.set k v).get? k' = if k = k' then some v else d.get? k' :=
  lookup_store k k' v d.items

@[simp] theorem get?_set_self (d : Dict κ ν) (k : κ) (v : ν) : (d.set k v).get? k = some v := by
  simp [get?_set]

theorem get?_set_ne (d : Dict κ ν) {k k' : κ} (v : ν) (h : k ≠ k') :
    (d.set k v).get? k' = d.get? k' := by
  simp [get?_set, h]

theorem get?_set_cases {d : Dict κ ν} {k k' : κ} {v w : ν} (h : (d.set k v).get? k' = some w) :
    (k = k' ∧ v = w) ∨ (k ≠ k' ∧ d.get? k' = some w) := by
  rw [get?_set] at h
  split at h
  · exact .inl ⟨‹_›, Option.some.inj h⟩
  · exact .inr ⟨‹_›, h⟩

theorem mem_items_of_get? {d : Dict κ ν} {k : κ} {v : ν} (h : d.get? k = some v) :
    (k, v) ∈ d.items := by
  have aux : ∀ ps : List (κ × ν), lookup k ps = some v → (k, v) ∈ ps := by
    intro ps hps
    induction ps with
    | nil => cases hps
    | cons p ps ih =>
      rw [lookup] at hps
      split at hps
      · next hp =>
        cases hps
        rw [← hp]
        exact List.mem_cons_self
      · exact List.mem_cons_of_mem _ (ih hps)
  exact aux d.items h

theorem get?_isSome {d : Dict κ ν} {k : κ} :
    (d.get? k).isSome = true ↔ k ∈ d.items.map Prod.fst := by
  constructor
  · intro h
    obtain ⟨v, hv⟩ := Option.isSome_iff_exists.mp h
    exact List.mem_map_of_mem (mem_items_of_get? hv)
  · intro h
    obtain ⟨p, hp, rfl⟩ := List.mem_map.mp h
    rw [get?, lookup_eq_some_of_mem d.nodup hp]
    rfl

theorem exists_set_iff {d : Dict κ ν} {k k' : κ} {v : ν} {P : ν → Prop} :
    (∃ w, (d.set k v).get? k' = some w ∧ P w) ↔
      if k = k' then P v else ∃ w, d.get? k' = some w ∧ P w := by
  rw [get?_set]
  split <;> simp

theorem get?_erase (d : Dict κ ν) (k k' : κ) :
    (d.erase k).get? k' = if k = k' then none else d.get? k' := by
  simp only [get?, erase]
  induction d.items with
  | nil => simp [lookup]
  | cons p ps ih =>
    by_cases hp : p.1 = k
    · simp only [hp, ne_eq, not_true_eq_false, decide_false, Bool.false_eq_true, not_false_eq_true,
        List.filter_cons_of_neg, ih, lookup]
      by_cases hk : k = k' <;> simp [hk]
    · simp only [ne_eq, hp, not_false_eq_true, decide_true, List.filter_cons_of_pos, lookup, ih]
      by_cases hk : p.1 = k'
      · simp [hk, show k ≠ k' from fun h => hp (hk.trans h.symm)]
      · simp [hk]

@[simp] theorem get?_map (d : Dict κ ν) (f : κ → ν → ν') (k : κ) :
    (d.map f).get? k = (d.get? k).map (f k) := by
  simp only [get?, map]
  induction d.items with
  | nil => rfl
  | cons p ps ih =>
    by_cases hp : p.1 = k
    · simp [lookup, hp]
    · simpa [lookup, hp] using ih

theorem lookup_eq_none_of_not_mem {k : κ} {ps : List (κ × ν)} (h : k ∉ ps.map Prod.fst) :
    lookup k ps = none := by
  induction ps with
  | nil => rfl
  | cons p ps ih =>
    rw [List.map_cons, List.mem_cons, not_or] at h
    rw [lookup, if_neg (Ne.symm h.1), ih h.2]

@[simp] theorem get?_filterMap (d : Dict κ ν) (f : κ → ν → Option ν') (k : κ) :
    (d.filterMap f).get? k = (d.get? k).bind (f k) := by
  have aux : ∀ ps : List (κ × ν), (ps.map Prod.fst).Nodup →
      lookup k (ps.filterMap fun p => (f p.1 p.2).map (p.1, ·)) = (lookup k ps).bind (f k) := by
    intro ps hnd
    induction ps with
    | nil => rfl
    | cons p ps ih =>
      rw [List.map_cons, List.nodup_cons] at hnd
      have hrest := ih hnd.2
      rw [List.filterMap_cons, lookup]
      by_cases hp : p.1 = k
      · have hnone : lookup k ps = none := lookup_eq_none_of_not_mem (hp ▸ hnd.1)
        rw [if_pos hp, Option.bind_some, ← hp]
        rw [hnone, ← hp] at hrest
        cases hf : f p.1 p.2 with
        | none => simpa using hrest
        | some w => simp [lookup]
      · rw [if_neg hp, ← hrest]
        cases f p.1 p.2 <;> simp [lookup, hp]
  exact aux d.items d.nodup

theorem ext_items {d d' : Dict κ ν} (h : d.items = d'.items) : d = d' := by
  cases d
  cases d'
  congr

theorem map_map {ν'' : Type*} (d : Dict κ ν) (f : κ → ν → ν') (g : κ → ν' → ν'') :
    (d.map f).map g = d.map fun k v => g k (f k v) := by
  refine ext_items ?_
  simp [map]

theorem map_congr {d : Dict κ ν} {f g : κ → ν → ν'}
    (h : ∀ k v, d.get? k = some v → f k v = g k v) : d.map f = d.map g := by
  refine ext_items (List.map_congr_left fun p hp => ?_)
  rw [h p.1 p.2 (lookup_eq_some_of_mem d.nodup hp)]

theorem map_eq_self_iff {d : Dict κ ν} {f : κ → ν → ν} :
    d.map f = d ↔ ∀ k v, d.get? k = some v → f k v = v := by
  constructor
  · intro h k v hv
    have hmap := get?_map d f k
    rw [h, hv] at hmap
    exact (Option.some.inj hmap).symm
  · intro h
    rw [map_congr h]
    refine ext_items ?_
    simp [map]

/-- Assigning to a key that is there changes its value only. -/
theorem set_eq_map {d : Dict κ ν} {k : κ} {v w : ν} (h : d.get? k = some v) :
    d.set k w = d.map fun k' v' => if k' = k then w else v' := by
  have aux : ∀ ps : List (κ × ν), (ps.map Prod.fst).Nodup → lookup k ps = some v →
      store k w ps = ps.map fun p => (p.1, if p.1 = k then w else p.2) := by
    intro ps hnd hps
    induction ps with
    | nil => cases hps
    | cons p ps ih =>
      rw [List.map_cons, List.nodup_cons] at hnd
      rw [lookup] at hps
      rw [store, List.map_cons]
      by_cases hp : p.1 = k
      · rw [if_pos hp, if_pos hp, hp]
        -- no later key is `k`
        have hrest : ps.map (fun q => (q.1, if q.1 = k then w else q.2)) = ps.map id := by
          refine List.map_congr_left fun q hq => ?_
          have hne : q.1 ≠ k := fun heq =>
            hnd.1 (by rw [hp, ← heq]; exact List.mem_map_of_mem hq)
          rw [if_neg hne]
          rfl
        rw [hrest, List.map_id]
      · rw [if_neg hp] at hps
        rw [if_neg hp, if_neg hp, ih hnd.2 hps]
  exact ext_items (aux d.items d.nodup h)

theorem items_set_of_not_mem {d : Dict κ ν} {k : κ} (h : d.get? k = none) (v : ν) :
    (d.set k v).items = d.items ++ [(k, v)] := by
  refine store_of_not_mem fun hmem => ?_
  rw [← get?_isSome, h] at hmem
  cases hmem

/-! ## Dictionaries as partial functions -/

theorem get?_set_eq_update (d : Dict κ ν) (k : κ) (v : ν) :
    (d.set k v).get? = Function.update d.get? k (some v) := by
  funext k'
  rw [get?_set, Function.update_apply]
  exact if_congr eq_comm rfl rfl

theorem get?_erase_eq_update (d : Dict κ ν) (k : κ) :
    (d.erase k).get? = Function.update d.get? k none := by
  funext k'
  rw [get?_erase, Function.update_apply]
  exact if_congr eq_comm rfl rfl

theorem mem_values {d : Dict κ ν} {v : ν} : v ∈ d.values ↔ ∃ k, d.get? k = some v := by
  constructor
  · intro h
    obtain ⟨p, hp, rfl⟩ := List.mem_map.mp h
    exact ⟨p.1, lookup_eq_some_of_mem d.nodup hp⟩
  · rintro ⟨k, hk⟩
    exact List.mem_map.mpr ⟨(k, v), mem_items_of_get? hk, rfl⟩

/-- Values that carry their keys are distinct. -/
theorem nodup_values {d : Dict κ ν} {f : ν → κ} (h : ∀ k v, d.get? k = some v → f v = k) :
    (d.values.map f).Nodup := by
  have hkeys : d.values.map f = d.items.map Prod.fst := by
    rw [values, List.map_map]
    refine List.map_congr_left fun p hp => ?_
    exact h p.1 p.2 (lookup_eq_some_of_mem d.nodup hp)
  rw [hkeys]
  exact d.nodup

end Dict

end Lib
