import PySQL.Lib.Machine
import PySQL.Storage.BufferPool

/-!
# When the page table and the frames agree

`fetch_page` takes its victim out of the page table before it reads the new page, and leaves the
victim's header and page in the frame.  If the read raises, the frame holds a page that the table
does not know.
-/

namespace PySQL.Storage

open Lib

namespace BufferPool

set_option linter.unusedSectionVars false

variable {n : ℕ} [NeZero n] {b b' : BufferPool n} {f : Fin n} {pageId : ℤ}

/-- The number of the page in a frame. -/
def numberAt (b : BufferPool n) (f : Fin n) : Option ℤ :=
  (b.frames f).map fun page => (page.header.pageId : ℤ)

/-- The table maps a page to a frame exactly when the frame's header names it and the frame holds
it. -/
def Consistent (b : BufferPool n) : Prop :=
  ∀ pageId f, b.pageTable.get? pageId = some f ↔
    0 ≤ pageId ∧ (b.headers f).pageId = pageId ∧ b.numberAt f = some pageId

/-- Pages that are pinned before a step keep their frame and their entry in the table. -/
def KeepsPinned (b b' : BufferPool n) : Prop :=
  ∀ pageId f, b.pageTable.get? pageId = some f → 0 < (b.headers f).pinCount →
    b'.pageTable.get? pageId = some f ∧ (b'.headers f).pageId = pageId ∧
      b'.numberAt f = some pageId

/-- No page is resident in two frames. -/
theorem Consistent.unique (h : b.Consistent) {f g : Fin n} (h0 : 0 ≤ pageId)
    (hf : (b.headers f).pageId = pageId ∧ b.numberAt f = some pageId)
    (hg : (b.headers g).pageId = pageId ∧ b.numberAt g = some pageId) : f = g := by
  have hft := (h pageId f).mpr ⟨h0, hf⟩
  have hgt := (h pageId g).mpr ⟨h0, hg⟩
  rw [hft] at hgt
  exact Option.some.inj hgt

/-! ## Steps that move no page -/

/-- The same pages in the same frames under the same table. -/
structure SameShape (b b' : BufferPool n) : Prop where
  pageTable : ∀ pageId, b'.pageTable.get? pageId = b.pageTable.get? pageId
  pageId : ∀ f, (b'.headers f).pageId = (b.headers f).pageId
  number : ∀ f, b'.numberAt f = b.numberAt f
  numPages : b.disk.numPages ≤ b'.disk.numPages

theorem SameShape.refl (b : BufferPool n) : SameShape b b :=
  ⟨fun _ => rfl, fun _ => rfl, fun _ => rfl, le_rfl⟩

theorem SameShape.trans {b₁ b₂ b₃ : BufferPool n} (h : SameShape b₁ b₂) (h' : SameShape b₂ b₃) :
    SameShape b₁ b₃ where
  pageTable q := (h'.pageTable q).trans (h.pageTable q)
  pageId f := (h'.pageId f).trans (h.pageId f)
  number f := (h'.number f).trans (h.number f)
  numPages := h.numPages.trans h'.numPages

theorem SameShape.setHeader (b : BufferPool n) {h : FrameHeader}
    (hid : h.pageId = (b.headers f).pageId) : SameShape b (b.setHeader f h) where
  pageTable _ := rfl
  pageId g := by
    rw [headers_setHeader]
    split
    · next heq => rw [heq, hid]
    · rfl
  number _ := rfl
  numPages := le_rfl

theorem Swept.sameShape (h : Swept b b') : SameShape b b' where
  pageTable q := by rw [h.pageTable]
  pageId := h.pageId
  number f := by rw [numberAt, numberAt, h.frames]
  numPages := by rw [h.disk]

theorem SameShape.writeFrame (b : BufferPool n) (f : Fin n) : SameShape b (b.writeFrame f).1 := by
  cases hf : b.frames f with
  | none =>
    rw [BufferPool.writeFrame, hf]
    exact .refl b
  | some page =>
    have hnumber : ∀ g, (b.writeFrame f).1.numberAt g = b.numberAt g := by
      intro g
      rw [numberAt, numberAt, frames_writeFrame hf]
      split
      · next heq => rw [heq, hf, Option.map_some, Option.map_some, b.disk.writePage_pageId]
      · rfl
    rw [writeFrame_eq hf] at hnumber ⊢
    exact ⟨fun _ => rfl, fun _ => rfl, hnumber, (b.disk.numPages_writePage page).ge⟩

theorem SameShape.cleanFrame (b : BufferPool n) (f : Fin n) : SameShape b (b.cleanFrame f).1 := by
  have hwrite := SameShape.writeFrame b f
  unfold BufferPool.cleanFrame
  split
  · next heq => rwa [heq] at hwrite
  · next heq =>
    rw [heq] at hwrite
    exact hwrite.trans (.setHeader _ rfl)

theorem SameShape.flushFrames (b : BufferPool n) (fs : List (Fin n)) :
    SameShape b (b.flushFrames fs).1 := by
  induction fs generalizing b with
  | nil => exact .refl b
  | cons f fs ih =>
    have hclean := SameShape.cleanFrame b f
    unfold BufferPool.flushFrames
    split
    · split
      · next heq => rwa [heq] at hclean
      · next heq =>
        rw [heq] at hclean
        exact hclean.trans (ih _)
    · exact ih b

theorem SameShape.flushPage (b : BufferPool n) (pageId : ℤ) : SameShape b (b.flushPage pageId).1 := by
  unfold BufferPool.flushPage
  split
  · exact .refl b
  next f _ =>
  have hclean := SameShape.cleanFrame b f
  split
  · split
    · next heq => rwa [heq] at hclean
    · next heq => rwa [heq] at hclean
  · exact .refl b

theorem SameShape.unpinPage (b : BufferPool n) (pageId : ℤ) (isDirty : Bool) :
    SameShape b (b.unpinPage pageId isDirty).1 := by
  unfold BufferPool.unpinPage
  split
  · exact .refl b
  · simp only
    split
    · exact .refl b
    · exact .setHeader b rfl

theorem SameShape.consistent (h : SameShape b b') : b'.Consistent ↔ b.Consistent := by
  simp only [Consistent, h.pageTable, h.pageId, h.number]

/-! ## The invariant -/

/-- The table lists exactly the frames that are not empty, and these hold the pages that their
headers name. -/
structure Sync (b : BufferPool n) : Prop where
  table : ∀ pageId f, b.pageTable.get? pageId = some f ↔ 0 ≤ pageId ∧ (b.headers f).pageId = pageId
  number : ∀ f, 0 ≤ (b.headers f).pageId → b.numberAt f = some (b.headers f).pageId
  known : ∀ f, (b.headers f).pageId < b.disk.numPages

theorem Sync.consistent (h : b.Sync) : b.Consistent := by
  intro pageId f
  rw [h.table]
  constructor
  · rintro ⟨h0, hid⟩
    exact ⟨h0, hid, by rw [h.number f (by omega), hid]⟩
  · rintro ⟨h0, hid, -⟩
    exact ⟨h0, hid⟩

theorem Sync.of_sameShape (h : b.Sync) (hs : SameShape b b') : b'.Sync where
  table pageId f := by rw [hs.pageTable, hs.pageId, h.table]
  number f h0 := by
    rw [hs.pageId] at h0 ⊢
    rw [hs.number, h.number f h0]
  known f := by
    rw [hs.pageId]
    exact (h.known f).trans_le (by exact_mod_cast hs.numPages)

theorem Sync.keepsPinned_of_sameShape (h : b.Sync) (hs : SameShape b b') : KeepsPinned b b' := by
  intro pageId f hf _
  obtain ⟨h0, hid⟩ := (h.table pageId f).mp hf
  rw [hs.pageTable, hs.pageId, hs.number, h.number f (by omega), hid]
  exact ⟨hf, rfl, rfl⟩

/-! ## Evicting -/

/-- `b'` is `b` with frame `f` taken out of the table; its header and its page are still there. -/
structure Vacated (b b' : BufferPool n) (f : Fin n) : Prop where
  pageTable : ∀ pageId, b'.pageTable.get? pageId =
    if pageId = (b.headers f).pageId then none else b.pageTable.get? pageId
  pageId : ∀ g, (b'.headers g).pageId = (b.headers g).pageId
  number : ∀ g, b'.numberAt g = b.numberAt g
  numPages : b.disk.numPages ≤ b'.disk.numPages
  idle : 0 ≤ (b.headers f).pageId → (b.headers f).pinCount = 0

/-- An empty frame is in no entry of the table. -/
theorem Sync.vacated_self (h : b.Sync) (hempty : (b.headers f).pageId < 0) : Vacated b b f := by
  refine ⟨fun pageId => ?_, fun _ => rfl, fun _ => rfl, le_rfl, fun h0 => absurd h0 (by omega)⟩
  split
  · next heq =>
    rw [Option.eq_none_iff_forall_ne_some]
    intro g hg
    have := ((h.table pageId g).mp hg).1
    omega
  · rfl

/-- Frame `f` need not be written back before another page takes it, or its page can be. -/
def WritesBack (b : BufferPool n) (f : Fin n) : Prop :=
  0 ≤ (b.headers f).pageId → (b.headers f).isDirty → ∃ page, b.frames f = some page ∧
    (b.disk.writePage page).2 = .ok ()

/-- The disk once frame `f` is written back. -/
def diskAfterWriteBack (b : BufferPool n) (f : Fin n) : DiskManager :=
  match b.frames f with
  | some page =>
    if 0 ≤ (b.headers f).pageId ∧ (b.headers f).isDirty then (b.disk.writePage page).1.1 else b.disk
  | none => b.disk

theorem Swept.writesBack (h : Swept b b') (f : Fin n) : b'.WritesBack f ↔ b.WritesBack f := by
  rw [WritesBack, WritesBack, h.pageId, h.isDirty, h.frames, h.disk]

theorem Swept.diskAfterWriteBack (h : Swept b b') (f : Fin n) :
    b'.diskAfterWriteBack f = b.diskAfterWriteBack f := by
  rw [BufferPool.diskAfterWriteBack, BufferPool.diskAfterWriteBack, h.frames, h.disk, h.pageId,
    h.isDirty]

theorem evict_spec (h : b.Sync) (f : Fin n) :
    match b.evict f with
    | (b', .ok ()) => b.WritesBack f ∧ b'.disk = b.diskAfterWriteBack f ∧
        ((0 ≤ (b.headers f).pageId → (b.headers f).pinCount = 0) → Vacated b b' f)
    | (b', .error _) => ¬ b.WritesBack f ∧ SameShape b b' := by
  unfold evict
  simp only
  by_cases hempty : (b.headers f).pageId < 0
  · rw [if_pos hempty]
    refine ⟨fun h0 => absurd h0 (by omega), ?_, fun _ => h.vacated_self hempty⟩
    unfold diskAfterWriteBack
    split
    · rw [if_neg fun hc => absurd hc.1 (by omega)]
    · rfl
  rw [if_neg hempty]
  have h0 : 0 ≤ (b.headers f).pageId := by omega
  have hentry : b.pageTable.get? (b.headers f).pageId = some f := (h.table _ f).mpr ⟨h0, rfl⟩
  obtain ⟨page, hpage, -⟩ := Option.map_eq_some_iff.mp (h.number f h0)
  have hgone : ∀ b₁, SameShape b b₁ → (0 ≤ (b.headers f).pageId → (b.headers f).pinCount = 0) →
      Vacated b { b₁ with
        pageTable := b₁.pageTable.erase (b.headers f).pageId
        evictions := b₁.evictions + 1 } f := by
    intro b₁ hs hidle
    refine ⟨fun pageId => ?_, hs.pageId, hs.number, hs.numPages, hidle⟩
    rw [Dict.get?_erase, hs.pageTable]
    simp only [eq_comm]
  by_cases hdirty : (b.headers f).isDirty
  · have hwrite := SameShape.writeFrame b f
    rw [if_pos hdirty]
    rw [writeFrame_eq hpage] at hwrite ⊢
    cases hres : (b.disk.writePage page).2 with
    | error e =>
      refine ⟨fun hwb => ?_, hwrite⟩
      obtain ⟨page', hpage', hok⟩ := hwb h0 hdirty
      rw [hpage] at hpage'
      cases hpage'
      rw [hok] at hres
      cases hres
    | ok u =>
      simp only [hentry]
      refine ⟨fun _ _ => ⟨page, hpage, hres⟩, ?_, hgone _ hwrite⟩
      rw [diskAfterWriteBack, hpage]
      simp only
      rw [if_pos ⟨h0, hdirty⟩]
  · rw [if_neg hdirty]
    simp only [hentry]
    refine ⟨fun _ hd => absurd hd hdirty, ?_, hgone _ (.refl b)⟩
    rw [diskAfterWriteBack, hpage]
    simp only
    rw [if_neg fun hd => hdirty hd.2]

/-- Claiming a frame: it is vacated, or nothing moved. -/
theorem claimFrame_spec (h : b.Sync) :
    match b.claimFrame with
    | (b', .ok f) => b.findVictimFrame.2 = .ok f ∧ b.WritesBack f ∧
        b'.disk = b.diskAfterWriteBack f ∧ Vacated b b' f
    | (b', .error _) => SameShape b b' ∧ ∀ f, b.findVictimFrame.2 = .ok f → ¬ b.WritesBack f := by
  obtain ⟨hswept, hvictim⟩ := b.findVictimFrame_spec
  rcases heq : b.findVictimFrame with ⟨b₁, e | f⟩ <;> rw [heq] at hswept hvictim <;>
    simp only [claimFrame, heq]
  · exact ⟨hswept.sameShape, fun f hf => nomatch hf⟩
  have hs := hswept.sameShape
  have hwb := hswept.writesBack f
  have hdisk := hswept.diskAfterWriteBack f
  have hevict := evict_spec (h.of_sameShape hs) f
  rcases hev : b₁.evict f with ⟨b₂, e | u⟩ <;> rw [hev] at hevict <;> simp only
  · obtain ⟨hfail, hs'⟩ := hevict
    refine ⟨hs.trans hs', fun g hg => ?_⟩
    cases hg
    rwa [← hwb]
  · obtain ⟨hok, hdisk', hvac⟩ := hevict
    have hidle : 0 ≤ (b₁.headers f).pageId → (b₁.headers f).pinCount = 0 := by
      rw [hswept.pageId, hswept.pinCount]
      intro h0
      rcases hvictim f rfl with hneg | ⟨-, hpin⟩
      · omega
      · exact hpin
    have hv := hvac hidle
    refine ⟨trivial, hwb.mp hok, hdisk'.trans hdisk, ?_⟩
    refine ⟨fun pageId => ?_, fun g => (hv.pageId g).trans (hs.pageId g),
      fun g => (hv.number g).trans (hs.number g), hs.numPages.trans hv.numPages, ?_⟩
    · rw [hv.pageTable, hs.pageTable, hs.pageId]
    · rwa [hswept.pageId, hswept.pinCount] at hidle

theorem numberAt_install (b : BufferPool n) (f g : Fin n) (pageId : ℤ) (page : Page) (d : Bool) :
    (b.install f pageId page d).numberAt g =
      if g = f then some (page.header.pageId : ℤ) else b.numberAt g := by
  rw [numberAt, frames_install]
  split <;> rfl

/-- Another page in the frame that was vacated. -/
theorem Vacated.install (hv : Vacated b b' f) (h : b.Sync) {page : Page} (d : Bool)
    (hid : (page.header.pageId : ℤ) = pageId) (habsent : b.pageTable.get? pageId = none)
    (hknown : pageId < b'.disk.numPages) : (b'.install f pageId page d).Sync := by
  have h0 : 0 ≤ pageId := by omega
  constructor
  · intro q g
    rw [get?_install, headers_install, hv.pageTable]
    by_cases hg : g = f
    · subst hg
      rw [if_pos rfl]
      by_cases hq : pageId = q
      · subst hq
        simp [h0]
      · rw [if_neg hq]
        constructor
        · -- the entry that led to this frame is gone
          intro hsome
          split at hsome
          · cases hsome
          · next hne => exact absurd ((h.table q g).mp hsome).2.symm hne
        · rintro ⟨-, heq⟩
          exact absurd heq hq
    · rw [if_neg hg, hv.pageId]
      by_cases hq : pageId = q
      · subst hq
        rw [if_pos rfl]
        constructor
        · intro heq
          exact absurd (Option.some.inj heq).symm hg
        · intro hheader
          have hsome := (h.table pageId g).mpr hheader
          rw [habsent] at hsome
          cases hsome
      · rw [if_neg hq]
        split
        · next hvictim =>
          constructor
          · intro hnone
            cases hnone
          · -- two frames with the victim's number
            rintro ⟨hq0, hgq⟩
            have hgt := (h.table q g).mpr ⟨hq0, hgq⟩
            have hft := (h.table q f).mpr ⟨hq0, hvictim.symm⟩
            rw [hgt] at hft
            exact absurd (Option.some.inj hft) hg
        · exact h.table q g
  · intro g hg
    rw [headers_install] at hg ⊢
    rw [numberAt_install]
    by_cases hgf : g = f
    · rw [if_pos hgf, if_pos hgf, hid]
    · rw [if_neg hgf] at hg ⊢
      rw [if_neg hgf, hv.number, hv.pageId]
      rw [hv.pageId] at hg
      exact h.number g hg
  · intro g
    rw [headers_install]
    split
    · exact hknown
    · rw [hv.pageId]
      exact (h.known g).trans_le (by exact_mod_cast hv.numPages)

/-- The pages that stay are the pinned ones and more. -/
theorem Vacated.keepsPinned (hv : Vacated b b' f) (h : b.Sync) {q : ℤ} {g : Fin n}
    (hg : b.pageTable.get? q = some g) (hpin : 0 < (b.headers g).pinCount) :
    g ≠ f ∧ b'.pageTable.get? q = some g ∧ (b'.headers g).pageId = q ∧ b'.numberAt g = some q := by
  obtain ⟨h0, hid⟩ := (h.table q g).mp hg
  have hne : g ≠ f := by
    intro heq
    subst heq
    have := hv.idle (by omega)
    omega
  refine ⟨hne, ?_, by rw [hv.pageId, hid], by rw [hv.number, h.number g (by omega), hid]⟩
  rw [hv.pageTable, if_neg, hg]
  intro heq
  have hft := (h.table q f).mpr ⟨h0, heq.symm⟩
  rw [hg] at hft
  exact hne (Option.some.inj hft)

/-- A vacated frame that stays as it is contradicts the table. -/
theorem Vacated.not_consistent (hv : Vacated b b' f) (h : b.Sync)
    (hfull : 0 ≤ (b.headers f).pageId) : ¬ b'.Consistent := by
  intro hc
  have hentry := (hc (b.headers f).pageId f).mpr
    ⟨hfull, hv.pageId f, (hv.number f).trans (h.number f hfull)⟩
  rw [hv.pageTable, if_pos rfl] at hentry
  cases hentry

/-! ## The calls -/

/-- A fetch that comes to read the file for a page that is not in the pool, and the read raises
after a page was evicted for it, or returns a page with another number. -/
def Strands (b : BufferPool n) (pageId : ℤ) : Prop :=
  b.pageTable.get? pageId = none ∧ ∃ f, b.findVictimFrame.2 = .ok f ∧ b.WritesBack f ∧
    match (b.diskAfterWriteBack f).readPage pageId with
    | .ok page => (page.header.pageId : ℤ) ≠ pageId
    | .error _ => 0 ≤ (b.headers f).pageId

/-- A step that keeps the invariant and the pinned pages. -/
def Keeps (b b' : BufferPool n) : Prop := b'.Sync ∧ KeepsPinned b b'

theorem Sync.keeps (h : b.Sync) (hs : SameShape b b') : Keeps b b' :=
  ⟨h.of_sameShape hs, h.keepsPinned_of_sameShape hs⟩

theorem Vacated.keeps_install (hv : Vacated b b' f) (h : b.Sync) {page : Page} (d : Bool)
    (hid : (page.header.pageId : ℤ) = pageId) (habsent : b.pageTable.get? pageId = none)
    (hknown : pageId < b'.disk.numPages) : Keeps b (b'.install f pageId page d) := by
  refine ⟨hv.install h d hid habsent hknown, fun q g hg hpin => ?_⟩
  obtain ⟨hne, htable, hheader, hnumber⟩ := hv.keepsPinned h hg hpin
  rw [get?_install, headers_install, numberAt_install, if_neg hne, if_neg hne, if_neg]
  · exact ⟨htable, hheader, hnumber⟩
  · intro heq
    rw [← heq, habsent] at hg
    cases hg

theorem swept_misses (b : BufferPool n) (m : ℕ) : Swept b { b with misses := m } :=
  ⟨rfl, rfl, rfl, fun _ => rfl, fun _ => rfl, fun _ => rfl⟩

theorem Vacated.of_swept {b₀ : BufferPool n} (hs : Swept b b₀) (hv : Vacated b₀ b' f) :
    Vacated b b' f where
  pageTable q := by rw [hv.pageTable, hs.pageTable, hs.pageId]
  pageId g := (hv.pageId g).trans (hs.pageId g)
  number g := (hv.number g).trans (hs.sameShape.number g)
  numPages := hs.sameShape.numPages.trans hv.numPages
  idle := by
    have h := hv.idle
    rwa [hs.pageId, hs.pinCount] at h

/-- Fetching keeps the invariant unless it strands a page, and then breaks it at once. -/
theorem fetchPage_spec (h : b.Sync) (pageId : ℤ) :
    (¬ b.Strands pageId → Keeps b (b.fetchPage pageId).1) ∧
      (b.Strands pageId → ¬ (b.fetchPage pageId).1.Consistent) := by
  cases hentry : b.pageTable.get? pageId with
  | some f =>
    have hfetch : (b.fetchPage pageId).1 = { b.setHeader f { b.headers f with
        pinCount := (b.headers f).pinCount + 1, refBit := true } with hits := b.hits + 1 } := by
      simp only [fetchPage, hentry]
    have hset : SameShape b (b.setHeader f { b.headers f with
        pinCount := (b.headers f).pinCount + 1, refBit := true }) := .setHeader b rfl
    have hshape : SameShape b (b.fetchPage pageId).1 := by
      rw [hfetch]
      exact ⟨hset.pageTable, hset.pageId, hset.number, hset.numPages⟩
    refine ⟨fun _ => h.keeps hshape, fun hstrands => ?_⟩
    rw [hstrands.1] at hentry
    cases hentry
  | none =>
    have hmiss := swept_misses b (b.misses + 1)
    have hclaim := claimFrame_spec (h.of_sameShape hmiss.sameShape)
    rw [findVictimFrame_misses] at hclaim
    rcases heq : ({ b with misses := b.misses + 1 } : BufferPool n).claimFrame with ⟨b', e | f⟩ <;>
      rw [heq] at hclaim
    · -- no frame was claimed
      obtain ⟨hs, hfail⟩ := hclaim
      have hfetch : (b.fetchPage pageId).1 = b' := by simp only [fetchPage, hentry, heq]
      rw [hfetch]
      refine ⟨fun _ => h.keeps (hmiss.sameShape.trans hs), fun hstrands => ?_⟩
      obtain ⟨-, f, hf, hwb, -⟩ := hstrands
      exact absurd ((hmiss.writesBack f).mpr hwb) (hfail f hf)
    · obtain ⟨hvictim, hwb, hdisk, hv⟩ := hclaim
      replace hv := Vacated.of_swept hmiss hv
      rw [hmiss.writesBack] at hwb
      rw [hmiss.diskAfterWriteBack] at hdisk
      have hthis : b.Strands pageId ↔ match b'.disk.readPage pageId with
          | .ok page => (page.header.pageId : ℤ) ≠ pageId
          | .error _ => 0 ≤ (b.headers f).pageId := by
        rw [hdisk]
        constructor
        · rintro ⟨-, g, hg, -, hread⟩
          rw [hvictim] at hg
          cases hg
          exact hread
        · exact fun hread => ⟨hentry, f, hvictim, hwb, hread⟩
      rw [hthis]
      cases hread : b'.disk.readPage pageId with
      | error e =>
        have hfetch : (b.fetchPage pageId).1 = b' := by simp only [fetchPage, hentry, heq, hread]
        rw [hfetch]
        refine ⟨fun hempty => ?_, fun hfull => hv.not_consistent h hfull⟩
        -- the victim was an empty frame
        rw [not_le] at hempty
        refine h.keeps ⟨fun q => ?_, hv.pageId, hv.number, hv.numPages⟩
        rw [hv.pageTable]
        split
        · next heq =>
          rw [eq_comm, Option.eq_none_iff_forall_ne_some]
          intro g hg
          have := ((h.table q g).mp hg).1
          omega
        · rfl
      | ok page =>
        have hfetch : (b.fetchPage pageId).1 = b'.install f pageId page false := by
          simp only [fetchPage, hentry, heq, hread]
        rw [hfetch]
        refine ⟨fun hid => ?_, fun hid hc => ?_⟩
        · exact hv.keeps_install h false (not_not.mp hid) hentry
            (DiskManager.lt_numPages_of_readPage hread)
        · -- the frame holds a page with another number than its entry says
          have hf := (hc pageId f).mp (by rw [get?_install, if_pos rfl])
          rw [numberAt_install, if_pos rfl] at hf
          exact hid (Option.some.inj hf.2.2)

theorem newPage_spec (h : b.Sync) (pageType : PageType) : Keeps b (b.newPage pageType).1 := by
  rcases halloc : b.disk.allocatePage pageType with ⟨disk, e | page⟩
  · have hnum := b.disk.numPages_allocatePage pageType
    rw [halloc] at hnum
    have hnew : (b.newPage pageType).1 = { b with disk } := by simp only [newPage, halloc]
    rw [hnew]
    exact h.keeps ⟨fun _ => rfl, fun _ => rfl, fun _ => rfl, by simp only at hnum ⊢; omega⟩
  · have hnum := b.disk.numPages_allocatePage pageType
    have hid := DiskManager.allocatePage_pageId halloc
    rw [halloc] at hnum
    simp only at hnum
    have hs : SameShape b { b with disk } := ⟨fun _ => rfl, fun _ => rfl, fun _ => rfl, by simp only; omega⟩
    have hclaim := claimFrame_spec (h.of_sameShape hs)
    rcases heq : ({ b with disk } : BufferPool n).claimFrame with ⟨b', e | f⟩ <;> rw [heq] at hclaim
    · have hnew : (b.newPage pageType).1 = b' := by simp only [newPage, halloc, heq]
      rw [hnew]
      exact h.keeps (hs.trans hclaim.1)
    · obtain ⟨-, -, -, hv⟩ := hclaim
      have hnew : (b.newPage pageType).1 = b'.install f page.header.pageId page true := by
        simp only [newPage, halloc, heq]
      -- no page had the new number before
      have habsent : b.pageTable.get? page.header.pageId = none := by
        rw [Option.eq_none_iff_forall_ne_some]
        intro g hg
        have hg' := ((h.table _ g).mp hg).2
        have := h.known g
        omega
      have hknown : (page.header.pageId : ℤ) < b'.disk.numPages := by
        have hle : disk.numPages ≤ b'.disk.numPages := hv.numPages
        omega
      rw [hnew]
      exact hv.keeps_install (h.of_sameShape hs) true rfl habsent hknown

theorem deletePage_spec (h : b.Sync) (pageId : ℤ) : Keeps b (b.deletePage pageId).1 := by
  cases hentry : b.pageTable.get? pageId with
  | none =>
    simp only [deletePage, hentry]
    exact h.keeps (.refl b)
  | some f =>
    simp only [deletePage, hentry]
    split
    · exact h.keeps (.refl b)
    next hidle =>
    obtain ⟨h0, hid⟩ := (h.table pageId f).mp hentry
    have hother : ∀ g, g ≠ f → (b.headers g).pageId = pageId → False := by
      intro g hg hgid
      have hgt := (h.table pageId g).mpr ⟨h0, hgid⟩
      rw [hentry] at hgt
      exact hg (Option.some.inj hgt).symm
    constructor
    · constructor
      · intro q g
        simp only [Dict.get?_erase, headers_setHeader]
        by_cases hg : g = f
        · subst hg
          rw [if_pos rfl]
          constructor
          · intro hsome
            split at hsome
            · cases hsome
            · next hne => exact absurd (hid.symm.trans ((h.table q g).mp hsome).2) hne
          · rintro ⟨hq0, hq⟩
            simp only at hq
            omega
        · rw [if_neg hg]
          split
          · next heq =>
            subst heq
            exact ⟨fun hnone => (nomatch hnone), fun hgid => (hother g hg hgid.2).elim⟩
          · exact h.table q g
      · intro g hg
        simp only [headers_setHeader, numberAt] at hg ⊢
        by_cases hgf : g = f
        · rw [if_pos hgf] at hg
          simp only at hg
          omega
        · rw [if_neg hgf] at hg ⊢
          have hframe : ((b.setFrame f none).setHeader f {}).frames g = b.frames g := by
            show (b.setFrame f none).frames g = b.frames g
            rw [frames_setFrame, if_neg hgf]
          rw [hframe]
          exact h.number g hg
      · intro g
        simp only [headers_setHeader]
        split
        · show (-1 : ℤ) < (b.disk.numPages : ℤ)
          omega
        · exact h.known g
    · -- a pinned page is not the one deleted
      intro q g hg hpin
      have hne : g ≠ f := by
        intro heq
        subst heq
        exact hidle hpin
      obtain ⟨hq0, hq⟩ := (h.table q g).mp hg
      have hqne : pageId ≠ q := by
        intro heq
        exact hother g hne (hq.trans heq.symm)
      simp only [Dict.get?_erase, if_neg hqne, headers_setHeader, if_neg hne]
      refine ⟨hg, hq, ?_⟩
      have hnum := h.number g (by omega)
      rw [hq] at hnum
      rw [← hnum]
      show Option.map _ ((b.setFrame f none).frames g) = _
      rw [frames_setFrame, if_neg hne]
      rfl

theorem modify_spec (h : b.Sync) {page : Page} (hid : (page.header.pageId : ℤ) = pageId) :
    Keeps b (b.modify pageId page) := by
  unfold modify
  split
  · exact h.keeps (.refl b)
  next f hf =>
  refine h.keeps ⟨fun _ => rfl, fun _ => rfl, fun g => ?_, le_rfl⟩
  rw [numberAt, frames_setFrame]
  split
  · next heq =>
    obtain ⟨h0, hheader⟩ := (h.table pageId f).mp hf
    rw [heq, h.number f (by omega), hheader, Option.map_some, hid]
  · rfl

theorem new_sync (disk : DiskManager) : (new disk : BufferPool n).Sync where
  table pageId f := by
    constructor
    · intro hnone
      cases hnone
    · rintro ⟨h0, rfl⟩
      exact absurd h0 (show ¬ (0 : ℤ) ≤ -1 by decide)
  number f h0 := absurd h0 (show ¬ (0 : ℤ) ≤ -1 by decide)
  known f := by
    show (-1 : ℤ) < (disk.numPages : ℤ)
    omega

end BufferPool

/-! ## Runs -/

/-- A call, or a change that a user makes to a page between two calls. -/
inductive PoolInput where
  | call (call : PoolCall)
  | modify (pageId : ℤ) (page : Page)
  deriving DecidableEq, Repr

/-- A pool over a database file, under any sequence of calls, with any changes to the resident
pages that keep their numbers. -/
def poolMachine (n : ℕ) [NeZero n] (file : Bytes) : Machine (BufferPool n) PoolInput PoolReply where
  init := .new (.ofFile file)
  enabled _ input := ∀ pageId page, input = .modify pageId page → (page.header.pageId : ℤ) = pageId
  step b
    | .call call => b.call call
    | .modify pageId page => (b.modify pageId page, .unit)

/-- The step fetches a page for which another is evicted in vain. -/
def StrandsPage {n : ℕ} [NeZero n] (e : Event (BufferPool n) PoolInput PoolReply) : Prop :=
  ∃ pageId, e.input = .call (.fetchPage pageId) ∧ e.pre.Strands pageId

section Runs

variable {n : ℕ} [NeZero n] {file : Bytes} {b : BufferPool n} {input : PoolInput}

theorem poolMachine_step (h : b.Sync) (hi : (poolMachine n file).enabled b input) :
    (¬ StrandsPage ((poolMachine n file).event b input) →
        BufferPool.Keeps b ((poolMachine n file).step b input).1) ∧
      (StrandsPage ((poolMachine n file).event b input) →
        ¬ ((poolMachine n file).step b input).1.Consistent) := by
  cases input with
  | modify pageId page =>
    exact ⟨fun _ => BufferPool.modify_spec h (hi pageId page rfl), fun ⟨_, heq, _⟩ => nomatch heq⟩
  | call c =>
    cases c with
    | fetchPage pageId =>
      obtain ⟨hgood, hbad⟩ := BufferPool.fetchPage_spec h pageId
      refine ⟨fun hs => hgood fun hstrands => hs ⟨pageId, rfl, hstrands⟩, ?_⟩
      rintro ⟨q, heq, hstrands⟩
      cases heq
      exact hbad hstrands
    | newPage pageType =>
      exact ⟨fun _ => BufferPool.newPage_spec h pageType, fun ⟨_, heq, _⟩ => nomatch heq⟩
    | unpinPage pageId isDirty =>
      exact ⟨fun _ => h.keeps (.unpinPage b pageId isDirty), fun ⟨_, heq, _⟩ => nomatch heq⟩
    | flushPage pageId =>
      exact ⟨fun _ => h.keeps (.flushPage b pageId), fun ⟨_, heq, _⟩ => nomatch heq⟩
    | flushAll =>
      exact ⟨fun _ => h.keeps (.flushFrames b _), fun ⟨_, heq, _⟩ => nomatch heq⟩
    | deletePage pageId =>
      exact ⟨fun _ => BufferPool.deletePage_spec h pageId, fun ⟨_, heq, _⟩ => nomatch heq⟩

/-- Until a fetch strands a page, the table and the frames agree. -/
theorem sync_of_run {tr : List (Event (BufferPool n) PoolInput PoolReply)}
    (h : (poolMachine n file).Run tr b) (hgood : ∀ e ∈ tr, ¬ StrandsPage e) : b.Sync :=
  h.invariant_of (I := fun _ b => b.Sync) hgood (BufferPool.new_sync _)
    fun _ _ _ _ hI hi hP => ((poolMachine_step hI hi).1 hP).1

/-- After every call of a run the page table agrees with the frames, and every pinned page stays,
if and only if no fetch of the run strands a page. -/
theorem consistent_iff {tr : List (Event (BufferPool n) PoolInput PoolReply)}
    (h : (poolMachine n file).Run tr b) :
    (∀ e ∈ tr, ((poolMachine n file).post e).Consistent ∧
        BufferPool.KeepsPinned e.pre ((poolMachine n file).post e)) ↔
      ∀ e ∈ tr, ¬ StrandsPage e := by
  induction h with
  | nil => simp
  | snoc input hr hi ih =>
    simp only [List.forall_mem_append, List.forall_mem_singleton, ih]
    refine and_congr_right fun hgood => ?_
    obtain ⟨hkeeps, hbreaks⟩ := poolMachine_step (sync_of_run hr hgood) hi
    constructor
    · exact fun hok hstrands => hbreaks hstrands hok.1
    · intro hok
      obtain ⟨hsync, hpinned⟩ := hkeeps hok
      exact ⟨hsync.consistent, hpinned⟩

end Runs

/-- A file of one page of zeros. -/
def zeroFile : Bytes := List.replicate PAGE_SIZE 0

/-- Page 0 is fetched and let go, and page 7 does not exist. -/
def missingPage : List PoolInput :=
  [.call (.fetchPage 0), .call (.unpinPage 0 false), .call (.fetchPage 7)]

theorem missingPage_run : (poolMachine 1 zeroFile).Run
    ((poolMachine 1 zeroFile).trace (.new (.ofFile zeroFile)) missingPage)
    ((poolMachine 1 zeroFile).exec (.new (.ofFile zeroFile)) missingPage) := by
  refine Machine.run_of_legal ⟨?_, ?_, ?_, trivial⟩ <;>
    exact fun _ _ heq => nomatch heq

theorem consistent_iff_missingPage :
    (∀ e ∈ (poolMachine 1 zeroFile).trace (.new (.ofFile zeroFile)) missingPage,
        ((poolMachine 1 zeroFile).post e).Consistent ∧
          BufferPool.KeepsPinned e.pre ((poolMachine 1 zeroFile).post e)) ↔
      ∀ e ∈ (poolMachine 1 zeroFile).trace (.new (.ofFile zeroFile)) missingPage,
        ¬ StrandsPage e :=
  consistent_iff missingPage_run

/-- The frame still names page 0, which the table no longer knows. -/
theorem missingPage_state :
    let b := (poolMachine 1 zeroFile).exec (.new (.ofFile zeroFile)) missingPage
    (b.pageTable.get? 0, (b.headers 0).pageId, b.numberAt 0) = (none, 0, some 0) := by
  decide +kernel

theorem missingPage_not_consistent : ¬ ∀ (n : ℕ) (_ : NeZero n) (file : Bytes)
    (tr : List (Event (BufferPool n) PoolInput PoolReply)) (b : BufferPool n),
    (poolMachine n file).Run tr b →
      ∀ e ∈ tr, ((poolMachine n file).post e).Consistent := by
  intro h
  have hall := h 1 _ zeroFile _ _ missingPage_run
  simp only [missingPage, Machine.trace_cons, Machine.trace_nil, List.forall_mem_cons, Machine.post,
    Machine.event] at hall
  obtain ⟨-, -, hlast, -⟩ := hall
  have hstate := missingPage_state
  simp only [missingPage, Machine.exec_cons, Machine.exec_nil, Prod.mk.injEq] at hstate
  obtain ⟨htable, hheader, hnumber⟩ := hstate
  have hentry := (hlast 0 0).mpr ⟨le_rfl, hheader, hnumber⟩
  rw [htable] at hentry
  cases hentry

end PySQL.Storage
