import Mathlib.Tactic

/-!
# Lists in chunks

A list cut into pieces of `n` elements, the last of which may be shorter.
-/

namespace Lib

variable {α : Type} {n : ℕ}

def chunksUpTo (n : ℕ) : ℕ → List α → List (List α)
  | _, [] => []
  | 0, _ => []
  | fuel + 1, xs => xs.take n :: chunksUpTo n fuel (xs.drop n)

/-- The slices `xs[i:i+n]` for `i = 0, n, 2n, ...`. -/
def chunks (n : ℕ) (xs : List α) : List (List α) := chunksUpTo n xs.length xs

@[simp] theorem chunks_nil (n : ℕ) : chunks n ([] : List α) = [] := rfl

theorem chunksUpTo_of_le (hn : 1 ≤ n) {xs : List α} {fuel : ℕ} (h : xs.length ≤ fuel) :
    chunksUpTo n fuel xs = chunks n xs := by
  have hmain : ∀ fuel' fuel (xs : List α), xs.length ≤ fuel → xs.length ≤ fuel' →
      chunksUpTo n fuel xs = chunksUpTo n fuel' xs := by
    intro fuel'
    induction fuel' with
    | zero =>
      intro fuel xs _ hxs
      rw [List.eq_nil_of_length_eq_zero (Nat.le_zero.mp hxs)]
      cases fuel <;> rfl
    | succ fuel' ih =>
      intro fuel xs hle hle'
      cases xs with
      | nil => cases fuel <;> rfl
      | cons x xs =>
        rw [List.length_cons] at hle hle'
        obtain ⟨fuel, rfl⟩ := Nat.exists_eq_succ_of_ne_zero (Nat.ne_zero_of_lt hle)
        have hdrop : ((x :: xs).drop n).length ≤ xs.length := by
          rw [List.length_drop, List.length_cons]
          omega
        rw [chunksUpTo, chunksUpTo, ih fuel _ (by omega) (by omega)]
        · simp
        · simp
  exact hmain _ _ _ h (le_refl _)

theorem chunks_eq (hn : 1 ≤ n) {xs : List α} (h : xs ≠ []) :
    chunks n xs = xs.take n :: chunks n (xs.drop n) := by
  obtain ⟨x, xs, rfl⟩ := List.exists_cons_of_ne_nil h
  have hdrop : ((x :: xs).drop n).length ≤ xs.length := by
    rw [List.length_drop, List.length_cons]
    omega
  rw [← chunksUpTo_of_le hn hdrop, chunks, List.length_cons, chunksUpTo]
  simp

/-- Chunk after chunk is taken off the list. -/
theorem chunks_induction (hn : 1 ≤ n) {motive : List α → Prop} (nil : motive [])
    (chunk : ∀ xs, xs ≠ [] → motive (xs.drop n) → motive xs) (xs : List α) : motive xs := by
  induction hlen : xs.length using Nat.strong_induction_on generalizing xs with
  | _ m ih =>
    by_cases h : xs = []
    · rw [h]
      exact nil
    · have hpos := List.length_pos_iff.mpr h
      refine chunk xs h (ih (xs.drop n).length ?_ _ rfl)
      rw [List.length_drop]
      omega

theorem chunks_append (hn : 1 ≤ n) {c : List α} (hc : c.length = n) (xs : List α) :
    chunks n (c ++ xs) = c :: chunks n xs := by
  have hne : c ++ xs ≠ [] := by
    intro h
    rw [(List.append_eq_nil_iff.mp h).1, List.length_nil] at hc
    omega
  rw [chunks_eq hn hne, List.take_left' hc, List.drop_left' hc]

theorem chunks_of_length_le (hn : 1 ≤ n) {xs : List α} (h : xs ≠ []) (hle : xs.length ≤ n) :
    chunks n xs = [xs] := by
  rw [chunks_eq hn h, List.take_of_length_le hle, List.drop_of_length_le hle, chunks_nil]

theorem flatten_chunks (hn : 1 ≤ n) (xs : List α) : (chunks n xs).flatten = xs := by
  induction xs using chunks_induction hn with
  | nil => rfl
  | chunk xs h ih => rw [chunks_eq hn h, List.flatten_cons, ih, List.take_append_drop]

theorem length_chunk (hn : 1 ≤ n) {xs c : List α} (h : c ∈ chunks n xs) :
    1 ≤ c.length ∧ c.length ≤ n := by
  induction xs using chunks_induction hn with
  | nil => cases h
  | chunk xs hne ih =>
    rw [chunks_eq hn hne] at h
    rcases List.mem_cons.mp h with rfl | h
    · have hpos := List.length_pos_iff.mpr hne
      rw [List.length_take]
      omega
    · exact ih h

theorem mem_of_mem_chunk (hn : 1 ≤ n) {xs c : List α} (hc : c ∈ chunks n xs) {x : α} (hx : x ∈ c) :
    x ∈ xs := by
  rw [← flatten_chunks hn xs]
  exact List.mem_flatten.mpr ⟨c, hc, hx⟩

/-- What does not come first in a chunk does not come first in the list. -/
theorem mem_tail_of_mem_chunk (hn : 1 ≤ n) {xs c : List α} (hc : c ∈ chunks n xs) {x : α}
    (hx : x ∈ c.tail) : x ∈ xs.tail := by
  cases xs with
  | nil => cases hc
  | cons y xs =>
    obtain ⟨m, rfl⟩ := Nat.exists_eq_succ_of_ne_zero (Nat.one_le_iff_ne_zero.mp hn)
    rw [chunks_eq hn (List.cons_ne_nil y xs), List.mem_cons] at hc
    rcases hc with rfl | hc
    · exact List.mem_of_mem_take hx
    · exact List.mem_of_mem_drop (mem_of_mem_chunk hn hc (List.mem_of_mem_tail hx))

/-- There are at most `m` chunks if there are at most `m` times `n` elements. -/
theorem length_chunks_le (hn : 1 ≤ n) (xs : List α) (m : ℕ) :
    (chunks n xs).length ≤ m ↔ xs.length ≤ m * n := by
  induction xs using chunks_induction hn generalizing m with
  | nil => simp
  | chunk xs hne ih =>
    have hpos := List.length_pos_iff.mpr hne
    rw [chunks_eq hn hne, List.length_cons]
    cases m with
    | zero =>
      rw [Nat.zero_mul]
      omega
    | succ m =>
      rw [Nat.succ_le_succ_iff, ih m, List.length_drop, Nat.succ_mul]
      omega

/-- With two elements and more a chunk, there are fewer chunks than elements. -/
theorem length_chunks_lt (hn : 2 ≤ n) {xs : List α} (h : 2 ≤ xs.length) :
    (chunks n xs).length < xs.length := by
  have hle : (chunks n xs).length ≤ xs.length - 1 := by
    rw [length_chunks_le (Nat.le_of_lt hn)]
    calc xs.length ≤ (xs.length - 1) * 2 := by omega
      _ ≤ (xs.length - 1) * n := Nat.mul_le_mul_left _ hn
  omega

end Lib
