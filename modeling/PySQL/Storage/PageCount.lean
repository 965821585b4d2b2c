import PySQL.Storage.HeapInsert

/-!
# The number of pages

No call of the pool or of a heap file takes a page out of the database file.
-/

namespace PySQL.Storage

open Query Lib

set_option linter.unusedSectionVars false

variable {n : ℕ} [NeZero n] {α : Type} {b b' : BufferPool n}

namespace BufferPool

/-- The number of pages of the database file. -/
def numPages (b : BufferPool n) : ℕ := b.disk.numPages

theorem numPages_writeFrame (b : BufferPool n) (f : Fin n) :
    (b.writeFrame f).1.numPages = b.numPages := by
  unfold writeFrame
  split
  · rfl
  · exact DiskManager.numPages_writePage ..

theorem numPages_evict (b : BufferPool n) (f : Fin n) : (b.evict f).1.numPages = b.numPages := by
  have hwrite : (if (b.headers f).isDirty = true then b.writeFrame f else (b, .ok ())).1.numPages =
      b.numPages := by
    split
    · exact b.numPages_writeFrame f
    · rfl
  unfold evict
  dsimp only
  split
  · rfl
  · split
    · next heq =>
      rw [heq] at hwrite
      exact hwrite
    · next heq =>
      rw [heq] at hwrite
      split
      · exact hwrite
      · exact hwrite

theorem numPages_claimFrame (b : BufferPool n) : b.claimFrame.1.numPages = b.numPages := by
  have hswept : b.findVictimFrame.1.numPages = b.numPages :=
    congrArg DiskManager.numPages b.findVictimFrame_spec.1.disk
  unfold claimFrame
  split
  · next heq =>
    rw [heq] at hswept
    exact hswept
  · next b₁ f heq =>
    rw [heq] at hswept
    have hevict := (b₁.numPages_evict f).trans hswept
    split
    · next heq' =>
      rw [heq'] at hevict
      exact hevict
    · next heq' =>
      rw [heq'] at hevict
      exact hevict

theorem numPages_fetchPage (b : BufferPool n) (pageId : ℤ) :
    (b.fetchPage pageId).1.numPages = b.numPages := by
  unfold fetchPage
  split
  · rfl
  · have hclaim : (claimFrame { b with misses := b.misses + 1 }).1.numPages = b.numPages :=
      numPages_claimFrame _
    split
    · next heq =>
      rw [heq] at hclaim
      exact hclaim
    · next heq =>
      rw [heq] at hclaim
      split
      · exact hclaim
      · exact hclaim

theorem numPages_newPage (b : BufferPool n) (pageType : PageType) :
    (b.newPage pageType).1.numPages = b.numPages + 1 := by
  have halloc := b.disk.numPages_allocatePage pageType
  unfold newPage
  split
  · next heq =>
    rw [heq] at halloc
    exact halloc
  · next disk page heq =>
    rw [heq] at halloc
    have hclaim : (claimFrame { b with disk }).1.numPages = b.numPages + 1 :=
      (numPages_claimFrame _).trans halloc
    split
    · next heq' =>
      rw [heq'] at hclaim
      exact hclaim
    · next heq' =>
      rw [heq'] at hclaim
      exact hclaim

theorem numPages_unpinPage (b : BufferPool n) (pageId : ℤ) (isDirty : Bool) :
    (b.unpinPage pageId isDirty).1.numPages = b.numPages := by
  unfold unpinPage
  split
  · rfl
  · dsimp only
    split <;> rfl

theorem numPages_modify (b : BufferPool n) (pageId : ℤ) (page : Page) :
    (b.modify pageId page).numPages = b.numPages := by
  unfold modify
  split <;> rfl

/-- The file has all the pages that it had. -/
def Grows (b b' : BufferPool n) : Prop := b.numPages ≤ b'.numPages

instance : Std.Refl (Grows (n := n)) where
  refl _ := le_rfl

instance : IsTrans (BufferPool n) Grows where
  trans _ _ _ := le_trans

end BufferPool

namespace HeapFile

open BufferPool

theorem grows_fetchPage (pageId : ℕ) : Effect.Within Grows (fetchPage pageId : PoolCalls n Page) := by
  intro b
  have hfetch := b.numPages_fetchPage pageId
  unfold fetchPage
  split
  all_goals
    next heq =>
      rw [heq] at hfetch
      exact hfetch.ge

theorem grows_newPage : Effect.Within Grows (newPage : PoolCalls n Page) := by
  intro b
  have hnew := b.numPages_newPage .heapData
  unfold newPage
  split
  all_goals
    next heq =>
      rw [heq] at hnew
      exact (Nat.le_succ _).trans hnew.ge

theorem grows_unpinPage (pageId : ℕ) (isDirty : Bool) :
    Effect.Within Grows (unpinPage pageId isDirty : PoolCalls n Unit) :=
  fun b => (b.numPages_unpinPage pageId isDirty).ge

theorem grows_modifyPage (pageId : ℕ) (page : Page) :
    Effect.Within Grows (modifyPage pageId page : PoolCalls n Unit) :=
  fun b => (b.numPages_modify pageId page).ge

theorem grows_tryPages (recordData : Bytes) (pageIds : List ℕ) :
    Effect.Within Grows (tryPages recordData pageIds : PoolCalls n (Option RecordId)) := by
  induction pageIds with
  | nil => exact Effect.within_pure none
  | cons pageId rest ih =>
    refine (grows_fetchPage pageId).bind fun page => ?_
    dsimp only
    refine (grows_modifyPage pageId _).bind fun _ => ?_
    split
    · exact (grows_unpinPage pageId true).bind fun _ => Effect.within_pure _
    · exact (grows_unpinPage pageId false).bind fun _ => ih

theorem grows_linkPage (prevPageId : Option ℕ) (newPage : Page) :
    Effect.Within Grows (linkPage prevPageId newPage : PoolCalls n Page) := by
  cases prevPageId with
  | none => exact Effect.within_pure newPage
  | some prevPageId =>
    refine (grows_fetchPage prevPageId).bind fun page => ?_
    refine (grows_modifyPage prevPageId _).bind fun _ => ?_
    refine (grows_modifyPage newPage.header.pageId _).bind fun _ => ?_
    exact (grows_unpinPage prevPageId true).bind fun _ => Effect.within_pure _

/-- The file behind the pool of a heap file has all the pages that it had. -/
def Grows (x x' : HeapFile × BufferPool n) : Prop := x.2.Grows x'.2

instance : Std.Refl (Grows (n := n)) where
  refl x := le_refl x.2.numPages

instance : IsTrans (HeapFile × BufferPool n) Grows where
  trans _ _ _ h h' := le_trans (show BufferPool.numPages _ ≤ BufferPool.numPages _ from h) h'

theorem grows_inPool {m : PoolCalls n α} (h : Effect.Within BufferPool.Grows m) :
    Effect.Within Grows (inPool m) :=
  h.zoom fun _ _ hgrows => hgrows

theorem grows_insert (py : Py) (values : Row) :
    Effect.Within Grows (insert py values : HeapCalls n RecordId) := by
  refine (Effect.within_read Prod.fst).bind fun heap => ?_
  refine (Effect.within_lift _).bind fun recordData => ?_
  refine (grows_inPool (grows_tryPages recordData heap.pageIds)).bind fun rid => ?_
  split
  · exact Effect.within_pure _
  · refine (grows_inPool grows_newPage).bind fun page => ?_
    refine Effect.Within.bind (m := keepPage page.header.pageId) (fun x => le_refl x.2.numPages) fun _ => ?_
    refine (grows_inPool (grows_linkPage _ page)).bind fun linked => ?_
    dsimp only
    refine (grows_inPool (grows_modifyPage _ _)).bind fun _ => ?_
    refine (grows_inPool (grows_unpinPage _ true)).bind fun _ => ?_
    split
    · exact Effect.within_lift _
    · exact Effect.within_pure _

end HeapFile

end PySQL.Storage
