import PySQL.Storage.ClockSweep
import PySQL.Storage.PoolCoherent

/-!
# Room in the buffer pool

A pool with fewer pinned pages than frames finds a frame for every page that exists.
-/

namespace PySQL.Storage

open Lib

set_option linter.unusedSectionVars false

variable {n : ℕ} [NeZero n]

namespace BufferPool

variable {b : BufferPool n}

/-- The page that a fetch returns is the one in its frame. -/
theorem frame_of_fetchPage {b' : BufferPool n} {pageId : ℤ} {page? : Option Page}
    (h : b.fetchPage pageId = (b', .ok page?)) :
    ∃ f, b'.pageTable.get? pageId = some f ∧ b'.frames f = page? := by
  unfold fetchPage at h
  split at h
  · next f hf =>
    rw [Prod.mk.injEq, Except.ok.injEq] at h
    obtain ⟨rfl, rfl⟩ := h
    exact ⟨f, hf, rfl⟩
  · split at h
    · cases h
    next b₁ f hclaim =>
    split at h
    · cases h
    next page hread =>
    rw [Prod.mk.injEq, Except.ok.injEq] at h
    obtain ⟨rfl, rfl⟩ := h
    refine ⟨f, ?_, ?_⟩
    · rw [get?_install, if_pos rfl]
    · rw [frames_install, if_pos rfl]

end BufferPool

/-! ## Fewer pinned pages than frames -/

variable {κ : Type} [DecidableEq κ] {b : BufferPool n} {g : Callers κ} {pageId : ℤ}

def Callers.pinned (g : Callers κ) : Finset ℤ := (g.pins.map Prod.snd).toFinset

namespace Coherent

/-- Otherwise every frame would hold a pinned page of its own. -/
theorem findVictimFrame (h : Coherent b g) (hroom : g.pinned.card < n) :
    ∃ f, b.findVictimFrame.2 = .ok f := by
  refine BufferPool.exists_victim ?_
  by_contra hnone
  push Not at hnone
  have hempty : ∀ f, 0 ≤ (b.headers f).pageId := fun f => (hnone f).1
  have hpin : ∀ f, (b.headers f).pinCount ≠ 0 := fun f => (hnone f).2
  have htable : ∀ f, b.pageTable.get? (b.headers f).pageId = some f := fun f =>
    (h.sync.table _ f).mpr ⟨hempty f, rfl⟩
  have hinj : Function.Injective fun f => (b.headers f).pageId := by
    intro f f' heq
    have hf := htable f
    rw [show (b.headers f).pageId = (b.headers f').pageId from heq, htable f'] at hf
    exact (Option.some.inj hf).symm
  have hle : Fintype.card (Fin n) ≤ g.pinned.card := by
    refine Finset.card_le_card_of_injOn (fun f => (b.headers f).pageId) ?_ hinj.injOn
    intro f _
    have hcount := h.pinCount _ f (htable f)
    have hpos : 0 < g.pins.countP (·.2 = (b.headers f).pageId) := by
      have := hpin f
      omega
    obtain ⟨x, hx, heq⟩ := List.countP_pos_iff.mp hpos
    simp only [Callers.pinned, Finset.mem_coe, List.mem_toFinset, List.mem_map]
    exact ⟨x, hx, of_decide_eq_true heq⟩
  rw [Fintype.card_fin] at hle
  omega

theorem claimFrame_of_room (h : Coherent b g) (hroom : g.pinned.card < n) :
    ∃ b' f, b.claimFrame = (b', .ok f) := by
  obtain ⟨f, hf⟩ := h.findVictimFrame hroom
  obtain ⟨hswept, hvictim⟩ := b.findVictimFrame_spec
  rcases heq : b.findVictimFrame with ⟨b₁, v⟩
  rw [heq] at hf hswept hvictim
  obtain rfl : v = .ok f := hf
  have hvictim' : (b₁.headers f).pageId < 0 ∨ (b₁.headers f).pinCount = 0 := by
    rw [hswept.pageId, hswept.pinCount]
    exact (hvictim f rfl).imp_right And.right
  obtain ⟨b', hevict, -⟩ := (h.of_swept hswept).evict hvictim'
  exact ⟨b', f, by simp only [BufferPool.claimFrame, heq, hevict]⟩

/-- Fetching an existing page succeeds: it is the page as it was last written, in a frame of its
own. -/
theorem fetchPage_of_room (h : Coherent b g) (hroom : g.pinned.card < n) {w : Page}
    (hw : g.written pageId = some w) (caller : κ) :
    ∃ b' page, b.fetchPage pageId = (b', .ok (some page)) ∧ Coherent b' (g.pin caller pageId) ∧
      page.contents = w.contents ∧ page.Preserved ∧ (page.header.pageId : ℤ) = pageId := by
  have hsome : (g.written pageId).isSome := by rw [hw]; rfl
  have hfetch := h.fetchPage hsome caller
  rcases heq : b.fetchPage pageId with ⟨b', e | page?⟩
  · -- a frame was found, and the page is on disk
    exfalso
    cases hentry : b.pageTable.get? pageId with
    | some f => simp [BufferPool.fetchPage, hentry] at heq
    | none =>
      have hmiss := h.of_swept (BufferPool.swept_misses b (b.misses + 1))
      obtain ⟨b₁, f, hclaim⟩ := hmiss.claimFrame_of_room hroom
      have hco := hmiss.claimFrame
      have hspec := BufferPool.claimFrame_spec hmiss.sync
      rw [hclaim] at hco hspec
      have habsent : b₁.pageTable.get? pageId = none := by
        rw [hspec.2.2.2.pageTable]
        split
        · rfl
        · exact hentry
      obtain ⟨page, -, hread, -⟩ := Coherent.read hco habsent hsome
      have hread' : b₁.disk.readPage pageId = .ok page := hread
      simp [BufferPool.fetchPage, hentry, hclaim, hread'] at heq
  · rw [heq] at hfetch
    obtain ⟨hco, page, w', rfl, hw', hcontents⟩ := hfetch
    rw [hw, Option.some.injEq] at hw'
    subst hw'
    obtain ⟨f, hf, hframe⟩ := BufferPool.frame_of_fetchPage heq
    obtain ⟨page', -, hpage', hpres, -, -, hid, -⟩ := hco.resident_page hf
    rw [hframe, Option.some.injEq] at hpage'
    subst hpage'
    exact ⟨b', page, rfl, hco, hcontents, hpres, hid⟩

/-- A page is allocated as long as its number fits the header. -/
theorem newPage_of_room (h : Coherent b g) (hroom : g.pinned.card < n) (pageType : PageType)
    (hnum : b.disk.numPages < 2 ^ 32) (caller : κ) :
    ∃ b' page, b.newPage pageType = (b', .ok page) ∧ page.header.pageId = b.disk.numPages ∧
      Coherent b' ((g.write b.disk.numPages (Page.new b.disk.numPages pageType)).pin caller
        b.disk.numPages) := by
  obtain ⟨data, page, halloc, -, -, -, -, hid⟩ := b.disk.allocatePage_spec pageType hnum
  have hnew := h.newPage pageType caller
  have hco := h.allocate pageType
  rw [halloc, Callers.allocate, if_pos hnum] at hco
  obtain ⟨b', f, hclaim⟩ := hco.claimFrame_of_room hroom
  have heq : b.newPage pageType = (b'.install f page.header.pageId page true, .ok page) := by
    simp only [BufferPool.newPage, halloc, hclaim]
  rw [heq, Callers.allocate, if_pos hnum] at hnew
  replace hnew : Coherent (b'.install f page.header.pageId page true)
      ((g.write b.disk.numPages (Page.new b.disk.numPages pageType)).pin caller
        page.header.pageId) := hnew
  refine ⟨_, page, heq, hid, ?_⟩
  rw [hid] at hnew ⊢
  exact hnew

end Coherent

end PySQL.Storage
