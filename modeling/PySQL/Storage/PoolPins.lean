import PySQL.Storage.Heap

/-!
# Who pins what

What fetching and letting go do to the pins, from any state in which the table leads to pages: also
after evictions that were left half done.
-/

namespace PySQL.Storage

open Lib

set_option linter.unusedSectionVars false

namespace BufferPool

variable {n : ℕ} [NeZero n]

/-- No frame is pinned. -/
def Unpinned (b : BufferPool n) : Prop := ∀ f, (b.headers f).pinCount = 0

/-- Every entry of the table leads to a frame whose header names the page and that holds a page.  A
header may name a page that the table does not know any more. -/
structure Mapped (b : BufferPool n) : Prop where
  frame : ∀ pageId f, b.pageTable.get? pageId = some f → (b.frames f).isSome
  pageId : ∀ pageId f, b.pageTable.get? pageId = some f → (b.headers f).pageId = pageId
  natural : ∀ pageId f, b.pageTable.get? pageId = some f → 0 ≤ pageId
  known : ∀ f, (b.headers f).pageId < b.disk.numPages

/-- Entries of the table may be gone; pins, headers and pages are the same. -/
structure Shrinks (b b' : BufferPool n) : Prop where
  table : ∀ pageId f, b'.pageTable.get? pageId = some f → b.pageTable.get? pageId = some f
  frame : ∀ f, (b.frames f).isSome → (b'.frames f).isSome
  pageId : ∀ f, (b'.headers f).pageId = (b.headers f).pageId
  pinCount : ∀ f, (b'.headers f).pinCount = (b.headers f).pinCount
  numPages : b.disk.numPages ≤ b'.disk.numPages

/-- Page `pageId` is pinned once more, in frame `f`. -/
structure Pins (b b' : BufferPool n) (pageId : ℤ) (f : Fin n) : Prop where
  mapped : b'.Mapped
  numPages : b.disk.numPages ≤ b'.disk.numPages
  entry : b'.pageTable.get? pageId = some f
  others : ∀ g, g ≠ f → (b'.headers g).pinCount = (b.headers g).pinCount
  pinCount : (b.pageTable.get? pageId = some f ∧
      (b'.headers f).pinCount = (b.headers f).pinCount + 1) ∨
    (((b.headers f).pageId < 0 ∨ (b.headers f).pinCount = 0) ∧ (b'.headers f).pinCount = 1)
  keeps : ∀ q g, b.pageTable.get? q = some g → g ≠ f →
    (∀ h, h ≠ g → (b.headers h).pageId ≠ q) → b'.pageTable.get? q = some g

variable {b b' b₁ b₂ : BufferPool n} {f g : Fin n} {pageId : ℤ} {page : Page}

theorem mapped_new (disk : DiskManager) : (new disk : BufferPool n).Mapped where
  frame _ _ h := nomatch h
  pageId _ _ h := nomatch h
  natural _ _ h := nomatch h
  known f := by
    show (-1 : ℤ) < disk.numPages
    omega

theorem unpinned_new (disk : DiskManager) : (new disk : BufferPool n).Unpinned := fun _ => rfl

/-! ## Making room -/

theorem Shrinks.refl (b : BufferPool n) : Shrinks b b :=
  ⟨fun _ _ h => h, fun _ h => h, fun _ => rfl, fun _ => rfl, le_rfl⟩

theorem Shrinks.trans (h : Shrinks b b₁) (h' : Shrinks b₁ b₂) : Shrinks b b₂ where
  table q f hf := h.table q f (h'.table q f hf)
  frame f hf := h'.frame f (h.frame f hf)
  pageId f := (h'.pageId f).trans (h.pageId f)
  pinCount f := (h'.pinCount f).trans (h.pinCount f)
  numPages := h.numPages.trans h'.numPages

theorem Swept.shrinks (h : Swept b b') : Shrinks b b' where
  table q f hf := by rwa [h.pageTable] at hf
  frame f hf := by rwa [h.frames]
  pageId := h.pageId
  pinCount := h.pinCount
  numPages := by rw [h.disk]

theorem Shrinks.mapped (h : Shrinks b b') (hb : b.Mapped) : b'.Mapped where
  frame q f hf := h.frame f (hb.frame q f (h.table q f hf))
  pageId q f hf := by rw [h.pageId, hb.pageId q f (h.table q f hf)]
  natural q f hf := hb.natural q f (h.table q f hf)
  known f := by
    have hlt := hb.known f
    have hle := h.numPages
    rw [h.pageId]
    omega

theorem Shrinks.unpinned (h : Shrinks b b') (hb : b.Unpinned) : b'.Unpinned := fun f => by
  rw [h.pinCount, hb f]

theorem shrinks_writeFrame (b : BufferPool n) (f : Fin n) : Shrinks b (b.writeFrame f).1 := by
  cases hf : b.frames f with
  | none =>
    rw [writeFrame, hf]
    exact .refl b
  | some page =>
    refine ⟨fun q g hg => ?_, fun g hg => ?_, fun g => ?_, fun g => ?_, ?_⟩
    · rwa [writeFrame_eq hf] at hg
    · rw [frames_writeFrame hf]
      split
      · rfl
      · exact hg
    · rw [writeFrame_eq hf]
    · rw [writeFrame_eq hf]
    · rw [writeFrame_eq hf]
      exact (b.disk.numPages_writePage page).ge

/-- Room is made in a frame by taking its page out of the table. -/
theorem evict_cases (b : BufferPool n) (f : Fin n) :
    (∃ e b', b.evict f = (b', .error e) ∧ Shrinks b b') ∨
    ∃ b', b.evict f = (b', .ok ()) ∧ Shrinks b b' ∧
      (0 ≤ (b.headers f).pageId → b'.pageTable.get? (b.headers f).pageId = none) ∧
      ∀ q g, b.pageTable.get? q = some g → q ≠ (b.headers f).pageId →
        b'.pageTable.get? q = some g := by
  rw [evict]
  by_cases hneg : (b.headers f).pageId < 0
  · rw [if_pos hneg]
    exact .inr ⟨b, rfl, .refl b, fun h0 => absurd h0 (by omega), fun _ _ hg _ => hg⟩
  rw [if_neg hneg]
  -- the frame after it was written back, if it had to be
  have hwritten : Shrinks b (if (b.headers f).isDirty then b.writeFrame f else (b, .ok ())).1 ∧
      (if (b.headers f).isDirty then b.writeFrame f else (b, .ok ())).1.pageTable =
        b.pageTable := by
    split
    · refine ⟨shrinks_writeFrame b f, ?_⟩
      rw [writeFrame]
      split <;> rfl
    · exact ⟨.refl b, rfl⟩
  rcases hwrite : (if (b.headers f).isDirty then b.writeFrame f else (b, .ok ())) with ⟨b₁, e | _⟩
  · rw [hwrite] at hwritten
    exact .inl ⟨e, b₁, rfl, hwritten.1⟩
  · rw [hwrite] at hwritten
    obtain ⟨hshrinks, htable⟩ := hwritten
    simp only at htable ⊢
    cases hentry : b₁.pageTable.get? (b.headers f).pageId with
    | none => exact .inl ⟨_, b₁, rfl, hshrinks⟩
    | some g =>
      refine .inr ⟨_, rfl, ⟨fun q g hg => ?_, hshrinks.frame, hshrinks.pageId, hshrinks.pinCount,
        hshrinks.numPages⟩, fun _ => ?_, fun q g hg hne => ?_⟩
      · rw [Dict.get?_erase] at hg
        split at hg
        · cases hg
        · exact hshrinks.table q g hg
      · rw [Dict.get?_erase, if_pos rfl]
      · rw [Dict.get?_erase, if_neg (Ne.symm hne), htable]
        exact hg

/-- A frame is claimed: nobody has it pinned, and no entry of the table leads to it. -/
structure Claims (b b' : BufferPool n) (f : Fin n) : Prop where
  shrinks : Shrinks b b'
  free : (b.headers f).pageId < 0 ∨ (b.headers f).pinCount = 0
  vacant : ∀ q, b'.pageTable.get? q ≠ some f
  keeps : ∀ q g, b.pageTable.get? q = some g → q ≠ (b.headers f).pageId →
    b'.pageTable.get? q = some g

theorem claimFrame_cases (hb : b.Mapped) :
    (∃ e b', b.claimFrame = (b', .error e) ∧ Shrinks b b') ∨
    ∃ b' f, b.claimFrame = (b', .ok f) ∧ Claims b b' f := by
  obtain ⟨hswept, hvictim⟩ := b.findVictimFrame_spec
  rw [claimFrame]
  rcases hfind : b.findVictimFrame with ⟨b₁, e | f⟩
  · rw [hfind] at hswept
    exact .inl ⟨e, b₁, rfl, hswept.shrinks⟩
  · rw [hfind] at hswept
    have hfree : (b.headers f).pageId < 0 ∨ (b.headers f).pinCount = 0 :=
      (hvictim f (by rw [hfind])).imp_right And.right
    have hswept : Swept b b₁ := hswept
    simp only
    rcases evict_cases b₁ f with ⟨e, b', hevict, hshrinks⟩ | ⟨b', hevict, hshrinks, hgone, hkeeps⟩
    · rw [hevict]
      exact .inl ⟨e, b', rfl, hswept.shrinks.trans hshrinks⟩
    · rw [hevict]
      refine .inr ⟨b', f, rfl, hswept.shrinks.trans hshrinks, hfree, fun q hq => ?_,
        fun q g hg hne => ?_⟩
      · -- an entry that leads to the frame would be the one that was taken out
        have hb₁ := hswept.shrinks.mapped hb
        have hold := hshrinks.table q f hq
        have hid := hb₁.pageId q f hold
        have hnone := hgone (by rw [hid]; exact hb₁.natural q f hold)
        rw [hid, hq] at hnone
        cases hnone
      · refine hkeeps q g ?_ ?_
        · rw [hswept.pageTable]
          exact hg
        · rw [hswept.pageId]
          exact hne

/-- A page in a frame that was claimed. -/
theorem Claims.install (h : Claims b b' f) (hb : b.Mapped) (h0 : 0 ≤ pageId)
    (habsent : b.pageTable.get? pageId = none) (hknown : pageId < b'.disk.numPages) (page : Page)
    (d : Bool) :
    Pins b (b'.install f pageId page d) pageId f := by
  have hb' := h.shrinks.mapped hb
  have hheader : ((b'.install f pageId page d).headers f).pinCount = 1 := by
    rw [headers_install, if_pos rfl]
  have hentries : ∀ q g, (b'.install f pageId page d).pageTable.get? q = some g →
      (q = pageId ∧ g = f) ∨ (g ≠ f ∧ b'.pageTable.get? q = some g) := by
    intro q g hg
    rw [get?_install] at hg
    split at hg
    · next heq => exact .inl ⟨heq.symm, (Option.some.inj hg).symm⟩
    · exact .inr ⟨fun heq => h.vacant q (heq ▸ hg), hg⟩
  refine ⟨⟨fun q g hg => ?_, fun q g hg => ?_, fun q g hg => ?_, fun g => ?_⟩, h.shrinks.numPages,
    ?_, fun g hg => ?_, .inr ⟨h.free, hheader⟩, fun q g hg hne hothers => ?_⟩
  · rw [frames_install]
    split
    · rfl
    · next hne =>
      rcases hentries q g hg with ⟨-, heq⟩ | ⟨-, hold⟩
      · exact absurd heq hne
      · exact hb'.frame q g hold
  · rw [headers_install]
    rcases hentries q g hg with ⟨rfl, rfl⟩ | ⟨hne, hold⟩
    · rw [if_pos rfl]
    · rw [if_neg hne]
      exact hb'.pageId q g hold
  · rcases hentries q g hg with ⟨rfl, -⟩ | ⟨-, hold⟩
    · exact h0
    · exact hb'.natural q g hold
  · rw [headers_install]
    split
    · exact hknown
    · exact hb'.known g
  · rw [get?_install, if_pos rfl]
  · rw [headers_install, if_neg hg, h.shrinks.pinCount]
  · have hold : b'.pageTable.get? q = some g :=
      h.keeps q g hg fun heq => hothers f hne.symm heq.symm
    rw [get?_install, if_neg, hold]
    rintro rfl
    rw [habsent] at hg
    cases hg

/-! ## Fetching -/

/-- A fetch raises, or pins the page in its frame. -/
theorem fetchPage_cases (hb : b.Mapped) (pageId : ℤ) :
    (∃ e b', b.fetchPage pageId = (b', .error e) ∧ Shrinks b b') ∨
    ∃ page b' f, b.fetchPage pageId = (b', .ok (some page)) ∧ Pins b b' pageId f := by
  cases hentry : b.pageTable.get? pageId with
  | some f =>
    obtain ⟨page, hpage⟩ := Option.isSome_iff_exists.mp (hb.frame pageId f hentry)
    have hfetch : b.fetchPage pageId = ({ b.setHeader f { b.headers f with
        pinCount := (b.headers f).pinCount + 1, refBit := true } with hits := b.hits + 1 },
        .ok (some page)) := by
      simp only [fetchPage, hentry, hpage]
    have hid : ∀ g, ((b.fetchPage pageId).1.headers g).pageId = (b.headers g).pageId := by
      intro g
      rw [hfetch]
      show ((b.setHeader f _).headers g).pageId = _
      rw [headers_setHeader]
      split
      · next heq => rw [heq]
      · rfl
    have hpin : ∀ g, ((b.fetchPage pageId).1.headers g).pinCount =
        if g = f then (b.headers f).pinCount + 1 else (b.headers g).pinCount := by
      intro g
      rw [hfetch]
      show ((b.setHeader f _).headers g).pinCount = _
      rw [headers_setHeader]
      split <;> rfl
    rw [hfetch] at hid hpin
    refine .inr ⟨page, _, f, hfetch, ⟨hb.frame, fun q g hg => ?_, hb.natural, fun g => ?_⟩, le_rfl,
      hentry, fun g hg => ?_, .inl ⟨hentry, ?_⟩, fun q g hg _ _ => hg⟩
    · rw [hid]
      exact hb.pageId q g hg
    · rw [hid]
      exact hb.known g
    · rw [hpin, if_neg hg]
    · rw [hpin, if_pos rfl]
  | none =>
    have hmisses : Shrinks b { b with misses := b.misses + 1 } :=
      ⟨fun _ _ h => h, fun _ h => h, fun _ => rfl, fun _ => rfl, le_rfl⟩
    rw [fetchPage, hentry]
    simp only
    rcases claimFrame_cases (hmisses.mapped hb) with
      ⟨e, b', hclaim, hshrinks⟩ | ⟨b₁, f, hclaim, hclaims⟩
    · rw [hclaim]
      exact .inl ⟨e, b', rfl, hmisses.trans hshrinks⟩
    · rw [hclaim]
      simp only
      cases hread : b₁.disk.readPage pageId with
      | error e => exact .inl ⟨e, b₁, rfl, hmisses.trans hclaims.shrinks⟩
      | ok page =>
        have hknown := DiskManager.lt_numPages_of_readPage hread
        have h0 : 0 ≤ pageId := by
          by_contra hneg
          rw [DiskManager.readPage, if_neg (by omega), if_pos (by omega)] at hread
          cases hread
        have hpins := hclaims.install (hmisses.mapped hb) h0 hentry hknown page false
        exact .inr ⟨page, _, f, rfl, ⟨hpins.mapped, hpins.numPages, hpins.entry, hpins.others,
          hpins.pinCount, hpins.keeps⟩⟩

/-- A new page raises, or is pinned under a number that no frame has named before. -/
theorem newPage_cases (hb : b.Mapped) (pageType : PageType) :
    (∃ e b', b.newPage pageType = (b', .error e) ∧ Shrinks b b') ∨
    ∃ page b' f, b.newPage pageType = (b', .ok page) ∧ Pins b b' page.header.pageId f ∧
      page.header.pageId = b.disk.numPages ∧
      (∀ g, g ≠ f → (b'.headers g).pageId ≠ page.header.pageId) := by
  rcases halloc : b.disk.allocatePage pageType with ⟨disk, e | page⟩
  · have hnum : disk.numPages = b.disk.numPages + 1 := by
      rw [← b.disk.numPages_allocatePage pageType, halloc]
    refine .inl ⟨e, { b with disk }, by rw [newPage, halloc], ?_⟩
    exact ⟨fun _ _ h => h, fun _ h => h, fun _ => rfl, fun _ => rfl, by
      show b.disk.numPages ≤ disk.numPages
      rw [hnum]
      exact Nat.le_succ _⟩
  · have hnum : disk.numPages = b.disk.numPages + 1 := by
      rw [← b.disk.numPages_allocatePage pageType, halloc]
    have hid := DiskManager.allocatePage_pageId halloc
    have hdisk : Shrinks b { b with disk } := by
      refine ⟨fun _ _ h => h, fun _ h => h, fun _ => rfl, fun _ => rfl, ?_⟩
      show b.disk.numPages ≤ disk.numPages
      rw [hnum]
      exact Nat.le_succ _
    rw [newPage, halloc]
    simp only
    rcases claimFrame_cases (hdisk.mapped hb) with
      ⟨e, b', hclaim, hshrinks⟩ | ⟨b₁, f, hclaim, hclaims⟩
    · rw [hclaim]
      exact .inl ⟨e, b', rfl, hdisk.trans hshrinks⟩
    · rw [hclaim]
      have hfresh : b.pageTable.get? (page.header.pageId : ℤ) = none := by
        rw [Option.eq_none_iff_forall_not_mem]
        intro g hg
        have hlt := hb.known g
        rw [hb.pageId _ g hg, hid] at hlt
        omega
      have hle : disk.numPages ≤ b₁.disk.numPages := hclaims.shrinks.numPages
      have hknown : (page.header.pageId : ℤ) < b₁.disk.numPages := by omega
      have hpins := hclaims.install (hdisk.mapped hb) (by omega) hfresh hknown page true
      refine .inr ⟨page, _, f, rfl, ⟨hpins.mapped, hdisk.numPages.trans hpins.numPages, hpins.entry,
        hpins.others, hpins.pinCount, hpins.keeps⟩, hid, fun g hg => ?_⟩
      rw [headers_install, if_neg hg, hclaims.shrinks.pageId]
      have hlt := hb.known g
      have heq : ({ b with disk } : BufferPool n).headers g = b.headers g := rfl
      rw [heq]
      omega

/-! ## Changing and letting go -/

theorem modify_same (b : BufferPool n) (pageId : ℤ) (page : Page) :
    (b.modify pageId page).headers = b.headers ∧ (b.modify pageId page).pageTable = b.pageTable ∧
      (b.modify pageId page).disk = b.disk := by
  unfold modify
  split <;> exact ⟨rfl, rfl, rfl⟩

theorem Mapped.modify (hb : b.Mapped) (pageId : ℤ) (page : Page) :
    (b.modify pageId page).Mapped := by
  obtain ⟨hheaders, htable, hdisk⟩ := b.modify_same pageId page
  refine ⟨fun q g hg => ?_, fun q g hg => ?_, fun q g hg => ?_, fun g => ?_⟩
  · rw [htable] at hg
    unfold BufferPool.modify
    split
    · exact hb.frame q g hg
    · rw [frames_setFrame]
      split
      · rfl
      · exact hb.frame q g hg
  · rw [htable] at hg
    rw [hheaders]
    exact hb.pageId q g hg
  · rw [htable] at hg
    exact hb.natural q g hg
  · rw [hheaders, hdisk]
    exact hb.known g

theorem unpinPage_same (b : BufferPool n) (pageId : ℤ) (d : Bool) :
    (b.unpinPage pageId d).1.frames = b.frames ∧
      (b.unpinPage pageId d).1.pageTable = b.pageTable ∧
      (b.unpinPage pageId d).1.disk = b.disk ∧
      ∀ f, ((b.unpinPage pageId d).1.headers f).pageId = (b.headers f).pageId := by
  unfold unpinPage
  split
  · exact ⟨rfl, rfl, rfl, fun _ => rfl⟩
  · simp only
    split
    · exact ⟨rfl, rfl, rfl, fun _ => rfl⟩
    · refine ⟨rfl, rfl, rfl, fun g => ?_⟩
      rw [headers_setHeader]
      split
      · next heq => rw [heq]
      · rfl

theorem Mapped.unpinPage (hb : b.Mapped) (pageId : ℤ) (d : Bool) :
    (b.unpinPage pageId d).1.Mapped := by
  obtain ⟨hframes, htable, hdisk, hid⟩ := b.unpinPage_same pageId d
  refine ⟨fun q g hg => ?_, fun q g hg => ?_, fun q g hg => ?_, fun g => ?_⟩
  · rw [htable] at hg
    rw [hframes]
    exact hb.frame q g hg
  · rw [htable] at hg
    rw [hid]
    exact hb.pageId q g hg
  · rw [htable] at hg
    exact hb.natural q g hg
  · rw [hid, hdisk]
    exact hb.known g

theorem pinCount_unpinPage (hentry : b.pageTable.get? pageId = some f) (d : Bool) (g : Fin n) :
    ((b.unpinPage pageId d).1.headers g).pinCount =
      if g = f then (b.headers f).pinCount - 1 else (b.headers g).pinCount := by
  simp only [unpinPage, hentry]
  split
  · next hzero =>
    split
    · next heq => rw [heq, hzero]
    · rfl
  · rw [headers_setHeader]
    split <;> rfl

end BufferPool

end PySQL.Storage
