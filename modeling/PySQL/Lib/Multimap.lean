import Mathlib.Tactic

/-!
# Multimaps

A multimap is a bag of pairs.  An insertion adds a pair, and a removal takes one pair with the key out
of it: which one is left open.
-/

namespace Lib.Multimap

variable {κ ν : Type}

inductive Call (κ ν : Type) where
  | insert (key : κ) (value : ν)
  | delete (key : κ)

/-- What a call may do to a multimap, and what it returns. -/
inductive Step : Multiset (κ × ν) → Call κ ν → Option Bool → Multiset (κ × ν) → Prop where
  | insert (m : Multiset (κ × ν)) (key : κ) (value : ν) :
    Step m (.insert key value) none ((key, value) ::ₘ m)
  | remove (m : Multiset (κ × ν)) (key : κ) (value : ν) :
    Step ((key, value) ::ₘ m) (.delete key) (some true) m
  | absent (m : Multiset (κ × ν)) (key : κ) (h : ∀ p ∈ m, p.1 ≠ key) :
    Step m (.delete key) (some false) m

theorem Step.of_insert {m m' : Multiset (κ × ν)} {key : κ} {value : ν} {r : Option Bool}
    (h : Step m (.insert key value) r m') : r = none ∧ m' = (key, value) ::ₘ m := by
  cases h
  exact ⟨rfl, rfl⟩

inductive Run : Multiset (κ × ν) → List (Call κ ν) → List (Option Bool) → Multiset (κ × ν) → Prop where
  | nil (m : Multiset (κ × ν)) : Run m [] [] m
  | cons {m m' m'' : Multiset (κ × ν)} {c : Call κ ν} {r : Option Bool} {cs : List (Call κ ν)}
    {rs : List (Option Bool)} (step : Step m c r m') (rest : Run m' cs rs m'') :
    Run m (c :: cs) (r :: rs) m''

section

variable [DecidableEq κ]

/-- The values under a key. -/
def valuesAt (m : Multiset (κ × ν)) (key : κ) : Multiset ν := (m.filter (·.1 = key)).map Prod.snd

/-- The pairs whose keys satisfy `P`. -/
def within (m : Multiset (κ × ν)) (P : κ → Bool) : Multiset (κ × ν) := m.filter fun p => P p.1

@[simp] theorem valuesAt_coe (items : List (κ × ν)) (key : κ) :
    valuesAt (items : Multiset (κ × ν)) key = ((items.filter (·.1 = key)).map Prod.snd : List ν) :=
  rfl

end

@[simp] theorem within_coe (items : List (κ × ν)) (P : κ → Bool) :
    within (items : Multiset (κ × ν)) P = (items.filter fun p => P p.1 : List (κ × ν)) := by
  simp [within]

variable {P Q : List (κ × ν)} {key : κ} {value : ν}

/-- A pair that is put in between the parts of a list. -/
theorem coe_cut : ((P ++ (key, value) :: Q : List (κ × ν)) : Multiset (κ × ν)) =
    (key, value) ::ₘ ((P ++ Q : List (κ × ν)) : Multiset (κ × ν)) :=
  Multiset.coe_eq_coe.mpr List.perm_middle

theorem Step.insert_between :
    Step ((P ++ Q : List (κ × ν)) : Multiset (κ × ν)) (.insert key value) none
      ((P ++ (key, value) :: Q : List (κ × ν)) : Multiset (κ × ν)) := by
  rw [coe_cut]
  exact .insert _ key value

theorem Step.remove_between :
    Step ((P ++ (key, value) :: Q : List (κ × ν)) : Multiset (κ × ν)) (.delete key) (some true)
      ((P ++ Q : List (κ × ν)) : Multiset (κ × ν)) := by
  rw [coe_cut]
  exact .remove _ key value

theorem Step.eq_of_insert {m m' : Multiset (κ × ν)} {r : Option Bool}
    (h : Step m (.insert key value) r m') : m' = (key, value) ::ₘ m := by
  cases h
  rfl

end Lib.Multimap
