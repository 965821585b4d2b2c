import PySQL.Storage.HeapGrow

/-!
# Heap files that share a pool

A family of open files under names of any kind, on pages of their own.  A call of one file leaves
the records of the others alone.
-/

namespace PySQL.Storage

open Query Lib BufferPool

set_option linter.unusedSectionVars false

variable {n : ℕ} [NeZero n] {b b' : BufferPool n} {written written' : ℤ → Option Page}
  {heap heap' other : HeapFile}

/-- Each record of the table once. -/
structure Table.Lists (t : Table) (rs : List (RecordId × Bytes)) : Prop where
  nodup : (rs.map Prod.fst).Nodup
  mem_iff : ∀ rid data, (rid, data) ∈ rs ↔ t.records rid = some data

theorem room_of_two (hn : 2 ≤ n) : ([] : List ℤ).toFinset.card < n := by
  rw [List.toFinset_nil, Finset.card_empty]
  omega

namespace HeapFile

theorem lists_records (h : heap.Held written) :
    (heap.table written).Lists (heap.records written) where
  nodup := nodup_records h.chain.nodup
  mem_iff rid data := by
    rw [mem_records]
    show _ ↔ heap.recordAt written rid = some data
    unfold recordAt
    split
    · next hmem =>
      obtain ⟨page, hpage, -⟩ := h.pages _ hmem
      rw [hpage, Option.bind_some]
      simp only [hmem, Option.some.injEq, true_and, exists_eq_left', Page.mem_liveRecords_iff]
    · next hmem => simp [hmem]

/-- A file with a page of its own, and no record. -/
structure Starts (heap : HeapFile) (schema : TableSchema) (written written' : ℤ → Option Page) :
    Prop where
  held : heap.Held written'
  schema : heap.schema = schema
  packed : heap.Packed written'
  vacant : heap.recordAt written' = fun _ => none
  new : ∀ q ∈ heap.pageIds, written (q : ℕ) = none
  frame : ∀ q : ℕ, (written q).isSome → written' q = written q

theorem init_eq {schema : TableSchema} (h : b.Serves [] written) (hn : 2 ≤ n)
    (hcolumns : schema.columnNames ≠ []) (hnum : b.disk.numPages < INVALID_PAGE_ID) :
    ∃ heap b' written', init schema none b = (.ok heap, b') ∧ b'.Serves [] written' ∧
      heap.Starts schema written written' ∧ heap.firstPageId = b.disk.numPages := by
  have hnum' : b.disk.numPages < 2 ^ 32 := by
    rw [INVALID_PAGE_ID] at hnum
    omega
  obtain ⟨b', hinit, hserves, hnone⟩ := init_none schema h (room_of_two hn) hnum'
  set new := b.disk.numPages
  refine ⟨_, b', _, hinit, hserves, ?_, rfl⟩
  set written' := Function.update written (new : ℤ) (some (Page.new new .heapData))
  have hself : written' new = some (Page.new new .heapData) := Function.update_self ..
  exact {
    held := by
      refine ⟨hcolumns, List.cons_ne_nil _ _, .cons hnum.ne hself .nil, ?_⟩
      intro q hq
      rw [List.mem_singleton.mp hq]
      exact ⟨_, hself, Page.kept_new hnum' _⟩
    schema := rfl
    packed := by
      intro q hq page hpage
      rw [List.mem_singleton.mp hq, hself] at hpage
      exact Option.some.inj hpage ▸ Page.packed_new new .heapData
    vacant := by
      funext rid
      unfold recordAt
      split
      · next hmem =>
        rw [List.mem_singleton.mp hmem, hself]
        rfl
      · rfl
    new := by
      intro q hq
      rw [List.mem_singleton.mp hq, hnone]
    frame := by
      intro q hq
      refine Function.update_of_ne ?_ _ _
      intro heq
      rw [heq, hnone] at hq
      cases hq }

theorem fitsFirst_of_fits {current : ℤ → Option Page} {data : Bytes} {ids : List ℕ}
    (h : ∀ id ∈ ids, ∀ page ∈ current (id : ℕ), page.Fits (.insert data)) :
    FitsFirst current data ids := by
  induction ids with
  | nil => trivial
  | cons id rest ih =>
    rw [List.forall_mem_cons] at h
    intro page hpage
    split
    · exact h.1 page hpage
    · exact ih h.2

/-- A page without holes that takes a record has the room in one piece. -/
theorem Packed.fitsFirst (h : heap.Packed written) (hheld : heap.Held written) (data : Bytes) :
    FitsFirst written data heap.pageIds := by
  refine fitsFirst_of_fits fun id hid page hpage => ?_
  obtain ⟨w, hw, hkept⟩ := hheld.pages id hid
  rw [hw, Option.mem_some_iff] at hpage
  exact hpage ▸ (h id hid w hw).fits hkept.accounts data

/-! ## Families -/

/-- Every file has its pages, and no page belongs to two of them. -/
structure Family {κ : Type} (files : κ → Option HeapFile) (written : ℤ → Option Page) : Prop where
  held : ∀ k heap, files k = some heap → heap.Held written
  apart : ∀ i j heap heap', i ≠ j → files i = some heap → files j = some heap' →
    ∀ pageId ∈ heap.pageIds, pageId ∉ heap'.pageIds

/-- No page of any file has a hole. -/
def AllPacked {κ : Type} (files : κ → Option HeapFile) (written : ℤ → Option Page) : Prop :=
  ∀ k heap, files k = some heap → heap.Packed written

section Family

variable {κ : Type} {files : κ → Option HeapFile} {k j : κ}

theorem family_none : Family (fun _ : κ => none) written where
  held _ _ hk := by cases hk
  apart _ _ _ _ _ hi := by cases hi

/-- Files may be closed. -/
theorem Family.closed {files' : κ → Option HeapFile} (h : Family files written)
    (hsub : ∀ k heap, files' k = some heap → files k = some heap) : Family files' written where
  held k heap hk := h.held k heap (hsub k heap hk)
  apart i j heap heap' hij hi hj := h.apart i j heap heap' hij (hsub i heap hi) (hsub j heap' hj)

/-- A call of one file leaves the pages of another as they are. -/
theorem Family.agree (h : Family files written) (hfile : files k = some heap)
    (hmoves : heap.Moves heap' written written') (hj : j ≠ k) (hother : files j = some other) :
    ∀ q ∈ other.pageIds, written' (q : ℕ) = written q := by
  intro q hq
  exact hmoves.frame q (h.apart j k other heap hj hother hfile q hq)
    ((h.held j other hother).exists q hq)

theorem Family.recordAt_agree (h : Family files written) (hfile : files k = some heap)
    (hmoves : heap.Moves heap' written written') (hj : j ≠ k) (hother : files j = some other) :
    other.recordAt written' = other.recordAt written :=
  recordAt_congr (h.agree hfile hmoves hj hother)

/-- A page that a call gives to its file holds no record of another file. -/
theorem Family.vacant (h : Family files written) (hfile : files k = some heap)
    (hmoves : heap.Moves heap' written written') {rid : RecordId}
    (hmem : rid.pageId ∈ heap'.pageIds) (hj : j ≠ k) (hother : files j = some other) :
    other.recordAt written rid = none := by
  unfold recordAt
  split
  · next hin =>
    rcases hmoves.fresh _ hmem with hold | hnone
    · exact absurd hin (h.apart k j heap other (Ne.symm hj) hfile hother _ hold)
    · rw [hnone]
      rfl
  · rfl

variable [DecidableEq κ]

theorem Family.moves (h : Family files written) (hfile : files k = some heap)
    (hmoves : heap.Moves heap' written written') :
    Family (Function.update files k (some heap')) written' := by
  have hfresh : ∀ j other, j ≠ k → files j = some other → ∀ q ∈ other.pageIds,
      q ∉ heap'.pageIds := by
    intro j other hj hother q hq hq'
    rcases hmoves.fresh q hq' with hold | hnone
    · exact h.apart j k other heap hj hother hfile q hq hold
    · have hsome := (h.held j other hother).exists q hq
      rw [hnone] at hsome
      cases hsome
  constructor
  · intro j other hother
    by_cases hj : j = k
    · subst hj
      rw [Function.update_self, Option.some.injEq] at hother
      exact hother ▸ hmoves.held
    · rw [Function.update_of_ne hj] at hother
      exact (h.held j other hother).congr (h.agree hfile hmoves hj hother)
  · intro i j heap₁ heap₂ hij hi hj q hq
    by_cases hik : i = k
    · subst hik
      rw [Function.update_self, Option.some.injEq] at hi
      rw [Function.update_of_ne (Ne.symm hij)] at hj
      subst hi
      exact fun hq' => hfresh j heap₂ (Ne.symm hij) hj q hq' hq
    · rw [Function.update_of_ne hik] at hi
      by_cases hjk : j = k
      · subst hjk
        rw [Function.update_self, Option.some.injEq] at hj
        subst hj
        exact hfresh i heap₁ hik hi q hq
      · rw [Function.update_of_ne hjk] at hj
        exact h.apart i j heap₁ heap₂ hij hi hj q hq

theorem Family.packed_moves (h : Family files written) (hfile : files k = some heap)
    (hmoves : heap.Moves heap' written written') (hold : AllPacked files written)
    (hnew : heap'.Packed written') : AllPacked (Function.update files k (some heap')) written' := by
  intro j other hother q hq page hpage
  by_cases hj : j = k
  · subst hj
    rw [Function.update_self, Option.some.injEq] at hother
    exact hnew q (hother ▸ hq) page hpage
  · rw [Function.update_of_ne hj] at hother
    rw [h.agree hfile hmoves hj hother q hq] at hpage
    exact hold j other hother q hq page hpage

/-- A new file. -/
theorem Family.starts {schema : TableSchema} (h : Family files written)
    (hstarts : heap.Starts schema written written') :
    Family (Function.update files k (some heap)) written' ∧
      (AllPacked files written → AllPacked (Function.update files k (some heap)) written') ∧
      ∀ j other, files j = some other → other.recordAt written' = other.recordAt written := by
  have hagree : ∀ j other, files j = some other → ∀ q ∈ other.pageIds,
      written' (q : ℕ) = written q :=
    fun j other hother q hq => hstarts.frame q ((h.held j other hother).exists q hq)
  have hapart : ∀ j other, files j = some other → ∀ q ∈ other.pageIds, q ∉ heap.pageIds := by
    intro j other hother q hq hq'
    have hsome := (h.held j other hother).exists q hq
    rw [hstarts.new q hq'] at hsome
    cases hsome
  refine ⟨⟨?_, ?_⟩, ?_, fun j other hother => recordAt_congr (hagree j other hother)⟩
  · intro j other hother
    by_cases hj : j = k
    · subst hj
      rw [Function.update_self, Option.some.injEq] at hother
      exact hother ▸ hstarts.held
    · rw [Function.update_of_ne hj] at hother
      exact (h.held j other hother).congr (hagree j other hother)
  · intro i j heap₁ heap₂ hij hi hj q hq
    by_cases hik : i = k
    · subst hik
      rw [Function.update_self, Option.some.injEq] at hi
      rw [Function.update_of_ne (Ne.symm hij)] at hj
      subst hi
      exact fun hq' => hapart j heap₂ hj q hq' hq
    · rw [Function.update_of_ne hik] at hi
      by_cases hjk : j = k
      · subst hjk
        rw [Function.update_self, Option.some.injEq] at hj
        subst hj
        exact hapart i heap₁ hi q hq
      · rw [Function.update_of_ne hjk] at hj
        exact h.apart i j heap₁ heap₂ hij hi hj q hq
  · intro hold j other hother q hq page hpage
    by_cases hj : j = k
    · subst hj
      rw [Function.update_self, Option.some.injEq] at hother
      exact hstarts.packed q (hother ▸ hq) page hpage
    · rw [Function.update_of_ne hj] at hother
      rw [hagree j other hother q hq] at hpage
      exact hold j other hother q hq page hpage

end Family

end HeapFile

end PySQL.Storage
