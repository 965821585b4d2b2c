import PySQL.Lib.Slice

/-!
# Records at disjoint extents of a buffer

A buffer holds a family of records if each lies inside a given window, no two overlap, and reading
an extent gives the record.
-/

namespace Lib

/-- The range of `length` cells from `offset` on. -/
structure Extent where
  offset : ℤ
  length : ℕ
  deriving DecidableEq, Repr

namespace Extent

def stop (e : Extent) : ℤ := e.offset + e.length

def Disjoint (e e' : Extent) : Prop := e.stop ≤ e'.offset ∨ e'.stop ≤ e.offset

theorem Disjoint.symm {e e' : Extent} (h : e.Disjoint e') : e'.Disjoint e := Or.symm h

end Extent

variable {α ι : Type*}

/-- The buffer holds, inside the window from `lo` to `hi`, the records `val` at the extents
`ext`. -/
structure Holds (buf : List α) (lo hi : ℤ) (ext : ι → Option Extent)
    (val : ι → Option (List α)) : Prop where
  window : 0 ≤ lo ∧ hi ≤ buf.length
  inside : ∀ i e, ext i = some e → lo ≤ e.offset ∧ e.stop ≤ hi
  apart : ∀ i j e e', i ≠ j → ext i = some e → ext j = some e' → e.Disjoint e'
  reads : ∀ i, val i = (ext i).map fun e => slice buf e.offset e.stop

namespace Holds

variable {buf : List α} {lo lo' hi : ℤ} {ext : ι → Option Extent} {val : ι → Option (List α)}

theorem empty (h : 0 ≤ lo ∧ hi ≤ buf.length) :
    Holds buf lo hi (fun _ : ι => none) (fun _ => none) :=
  ⟨h, by simp, by simp, by simp⟩

theorem congr (h : Holds buf lo hi ext val) {ext' : ι → Option Extent}
    {val' : ι → Option (List α)} (he : ∀ i, ext' i = ext i) (hv : ∀ i, val' i = val i) :
    Holds buf lo hi ext' val' := by
  rwa [funext he, funext hv]

/-- Moving the lower end of the window. -/
theorem relax (h : Holds buf lo hi ext val) (h0 : 0 ≤ lo')
    (hlo : ∀ i e, ext i = some e → lo' ≤ e.offset) : Holds buf lo' hi ext val :=
  ⟨⟨h0, h.window.2⟩, fun i e he => ⟨hlo i e he, (h.inside i e he).2⟩, h.apart, h.reads⟩

/-- Renaming the records. -/
theorem comp (h : Holds buf lo hi ext val) (σ : Equiv.Perm ι) :
    Holds buf lo hi (ext ∘ σ) (val ∘ σ) where
  window := h.window
  inside i := h.inside (σ i)
  apart i j e e' hij := h.apart (σ i) (σ j) e e' (σ.injective.ne hij)
  reads i := h.reads (σ i)

/-- Records that do not overlap are together no longer than the window. -/
theorem sum_length_le (h : Holds buf lo hi ext val) (hle : lo ≤ hi) (is : Finset ι) :
    ((∑ i ∈ is, (ext i).elim 0 Extent.length : ℕ) : ℤ) ≤ hi - lo := by
  classical
  let cells (i : ι) : Finset ℤ := (ext i).elim ∅ fun e => Finset.Ico e.offset e.stop
  have hcard : ∀ i, (cells i).card = (ext i).elim 0 Extent.length := by
    intro i
    cases he : ext i with
    | none => simp [cells, he]
    | some e => simp [cells, he, Extent.stop]
  have hdis : (is : Set ι).PairwiseDisjoint cells := by
    intro i _ j _ hij
    refine Finset.disjoint_left.mpr fun a ha hb => ?_
    cases he : ext i with
    | none => simp [cells, he] at ha
    | some e =>
      cases he' : ext j with
      | none => simp [cells, he'] at hb
      | some e' =>
        have hapart := h.apart i j e e' hij he he'
        simp only [cells, he, he', Option.elim_some, Finset.mem_Ico] at ha hb
        simp only [Extent.Disjoint] at hapart
        omega
  have hsub : is.biUnion cells ⊆ Finset.Ico lo hi := by
    refine Finset.biUnion_subset.mpr fun i _ a ha => ?_
    cases he : ext i with
    | none => simp [cells, he] at ha
    | some e =>
      have hin := h.inside i e he
      simp only [cells, he, Option.elim_some, Finset.mem_Ico] at ha ⊢
      omega
  have hcount := Finset.card_le_card hsub
  rw [Finset.card_biUnion hdis, Finset.sum_congr rfl fun i _ => hcard i, Int.card_Ico] at hcount
  omega

variable [DecidableEq ι]

/-- Dropping a record. -/
theorem erase (h : Holds buf lo hi ext val) (i : ι) :
    Holds buf lo hi (Function.update ext i none) (Function.update val i none) where
  window := h.window
  inside j e he := by
    by_cases hj : j = i
    · simp [hj] at he
    · exact h.inside j e (by simpa [hj] using he)
  apart j k e e' hjk he he' := by
    by_cases hj : j = i
    · simp [hj] at he
    by_cases hk : k = i
    · simp [hk] at he'
    exact h.apart j k e e' hjk (by simpa [hj] using he) (by simpa [hk] using he')
  reads j := by
    by_cases hj : j = i
    · simp [hj]
    · simpa [hj] using h.reads j

/-- Writing a record at an extent that no other record touches. -/
theorem put (h : Holds buf lo hi ext val) (i : ι) {a : ℤ} (record : List α) (hlo : lo ≤ a)
    (hhi : a + record.length ≤ hi)
    (hdis : ∀ j e, j ≠ i → ext j = some e → e.Disjoint ⟨a, record.length⟩) :
    Holds (setSlice buf a (a + record.length) record) lo hi
      (Function.update ext i (some ⟨a, record.length⟩))
      (Function.update val i (some record)) := by
  obtain ⟨h0, hbuf⟩ := h.window
  have hfit : a + record.length ≤ buf.length := by omega
  refine ⟨⟨h0, by rwa [length_setSlice (by omega) hfit]⟩, fun j e he => ?_,
    fun j k e e' hjk he he' => ?_, fun j => ?_⟩
  · by_cases hj : j = i
    · obtain rfl : ⟨a, record.length⟩ = e := by simpa [hj] using he
      exact ⟨hlo, hhi⟩
    · exact h.inside j e (by simpa [hj] using he)
  · by_cases hj : j = i
    · obtain rfl : ⟨a, record.length⟩ = e := by simpa [hj] using he
      have hk : k ≠ i := fun hk => hjk (hj.trans hk.symm)
      exact (hdis k e' hk (by simpa [hk] using he')).symm
    · by_cases hk : k = i
      · obtain rfl : ⟨a, record.length⟩ = e' := by simpa [hk] using he'
        exact hdis j e hj (by simpa [hj] using he)
      · exact h.apart j k e e' hjk (by simpa [hj] using he) (by simpa [hk] using he')
  · by_cases hj : j = i
    · simp only [hj, Function.update_self, Option.map_some, Extent.stop]
      rw [slice_setSlice (by omega) hfit]
    · rw [Function.update_of_ne hj, Function.update_of_ne hj, h.reads j]
      cases he : ext j with
      | none => rfl
      | some e =>
        have hin := h.inside j e he
        have hd := hdis j e hj he
        simp only [Extent.Disjoint, Extent.stop] at hd hin
        simp only [Option.map_some, Extent.stop]
        rw [slice_setSlice_of_disjoint (by omega) hfit (by omega) (by omega) (by omega) hd]

/-- Writing a record at the lower end of a window that grows downwards to take it. -/
theorem putBelow (h : Holds buf lo hi ext val) (i : ι) (record : List α)
    (h0 : 0 ≤ lo - record.length) (hhi : lo ≤ hi) :
    Holds (setSlice buf (lo - record.length) (lo - record.length + record.length) record)
      (lo - record.length) hi (Function.update ext i (some ⟨lo - record.length, record.length⟩))
      (Function.update val i (some record)) := by
  have hrelax := h.relax h0 fun j e he => (show lo - record.length ≤ e.offset by
    have := (h.inside j e he).1
    omega)
  refine hrelax.put i record le_rfl (by omega) fun j e _ he => .inr ?_
  have := (h.inside j e he).1
  simp only [Extent.stop]
  omega

end Holds

end Lib
