import Mathlib.Tactic

/-!
# Logs backed by the logs of their entries' origins

Each entry of a log names an origin, and each origin has a log of its own.  A log is backed if, up
to any entry, it is an initial part of the log of that entry's origin.  Backed logs that have an
entry of one origin at the same place are equal up to there.
-/

namespace Lib

variable {α : Type*} (origin : α → ℕ)

def Backed (own : ℕ → List α) (log : List α) : Prop :=
  ∀ k x, log[k]? = some x → log.take (k + 1) <+: own (origin x)

variable {origin} {own own' : ℕ → List α} {log log' : List α} {k : ℕ} {x y : α}

namespace Backed

theorem nil : Backed origin own [] := by
  intro k x hx
  simp at hx

theorem mono (h : Backed origin own log) (hown : ∀ t, own t <+: own' t) :
    Backed origin own' log :=
  fun k x hx => (h k x hx).trans (hown _)

theorem take (h : Backed origin own log) (n : ℕ) : Backed origin own (log.take n) := by
  intro k x hx
  have hlt : k < n := by
    by_contra hge
    rw [List.getElem?_eq_none (by rw [List.length_take]; omega)] at hx
    cases hx
  rw [List.getElem?_take_of_lt hlt] at hx
  rw [List.take_take, Nat.min_eq_left (by omega)]
  exact h k x hx

theorem snoc (h : Backed origin own log) (hx : log ++ [x] <+: own (origin x)) :
    Backed origin own (log ++ [x]) := by
  intro k y hy
  rcases Nat.lt_trichotomy k log.length with hk | rfl | hk
  · rw [List.getElem?_append_left hk] at hy
    rw [List.take_append_of_le_length (by omega)]
    exact h k y hy
  · obtain rfl : x = y := by simpa using hy
    rwa [List.take_of_length_le (by simp)]
  · rw [List.getElem?_eq_none (by simpa using hk)] at hy
    cases hy

/-- The entry itself lies in the log of its origin. -/
theorem getElem? (h : Backed origin own log) (hx : log[k]? = some x) :
    (own (origin x))[k]? = some x := by
  obtain ⟨rest, hrest⟩ := h k x hx
  have hlt := (List.getElem?_eq_some_iff.mp hx).1
  rw [← hrest, List.getElem?_append_left (by rw [List.length_take]; omega),
    List.getElem?_take_of_lt (by omega), hx]

/-- Logs with an entry of one origin at the same place agree up to there. -/
theorem agree (h : Backed origin own log) (h' : Backed origin own log') (hx : log[k]? = some x)
    (hy : log'[k]? = some y) (hxy : origin x = origin y) :
    log.take (k + 1) = log'.take (k + 1) := by
  have hlt := (List.getElem?_eq_some_iff.mp hx).1
  have hlt' := (List.getElem?_eq_some_iff.mp hy).1
  have hpre := h k x hx
  have hpre' := h' k y hy
  rw [← hxy] at hpre'
  refine (List.prefix_of_prefix_length_le hpre hpre' ?_).eq_of_length ?_ <;>
    simp only [List.length_take] <;> omega

end Backed

/-- An initial part, cut at a length it has, is an initial part. -/
theorem take_eq_of_isPrefix {p l : List α} (h : p <+: l) : l.take p.length = p := by
  obtain ⟨rest, rfl⟩ := h
  simp

theorem getElem?_of_isPrefix {p l : List α} (h : p <+: l) (hx : p[k]? = some x) :
    l[k]? = some x := by
  obtain ⟨rest, rfl⟩ := h
  rw [List.getElem?_append_left (List.getElem?_eq_some_iff.mp hx).1, hx]

/-- An initial part that is short enough is one of the part before `n`. -/
theorem isPrefix_take {p l : List α} (h : p <+: l) {n : ℕ} (hn : p.length ≤ n) : p <+: l.take n := by
  rw [← take_eq_of_isPrefix h]
  exact List.take_isPrefix_take.mpr (.inl hn)

theorem isPrefix_of_agree {p : List α} (h : p <+: log) {n : ℕ} (hn : p.length ≤ n)
    (hagree : log.take n = log'.take n) : p <+: log' := by
  have hp := hagree ▸ isPrefix_take h hn
  exact hp.trans ⟨_, List.take_append_drop _ _⟩

end Lib
