import PySQL.Storage.PoolInvariant
import PySQL.Storage.Session

/-!
# What ties the pool to what was written

The frames hold what was last written, and the file holds it for every page that is not resident,
or that is clean without a change still to be reported.
-/

namespace PySQL.Storage

open Lib

set_option linter.unusedSectionVars false

variable {κ : Type} [DecidableEq κ] {n : ℕ} [NeZero n]

/-! ## The invariant -/

/-- The file holds page `pageId` as it was last written. -/
def Current (b : BufferPool n) (g : Callers κ) (pageId : ℤ) : Prop :=
  ∃ q w, Page.fromBytes (block b.disk.file pageId.toNat) = some q ∧ g.written pageId = some w ∧
    q.contents = w.contents

/-- A resident page whose frame is newer than the file. -/
def Pending (b : BufferPool n) (g : Callers κ) (pageId : ℤ) : Prop :=
  ∃ f, b.pageTable.get? pageId = some f ∧
    ((b.headers f).isDirty = true ∨ ∃ caller, (caller, pageId) ∈ g.unreported)

/-- How many pages the file holds. -/
def pagesOn (d : DiskManager) : ℕ := min d.numPages (2 ^ 32)

structure Coherent (b : BufferPool n) (g : Callers κ) : Prop where
  sync : b.Sync
  size : b.disk.file.length = pagesOn b.disk * PAGE_SIZE
  exists_iff : ∀ pageId, (g.written pageId).isSome ↔ 0 ≤ pageId ∧ pageId < pagesOn b.disk
  resident : ∀ pageId f, b.pageTable.get? pageId = some f → ∃ page w, b.frames f = some page ∧
    page.Preserved ∧ g.written pageId = some w ∧ page.contents = w.contents
  pinCount : ∀ pageId f, b.pageTable.get? pageId = some f →
    (b.headers f).pinCount = g.pins.countP (·.2 = pageId)
  held : ∀ x ∈ g.pins, (b.pageTable.get? x.2).isSome
  reported : ∀ x ∈ g.unreported, x ∈ g.pins
  readable : ∀ k < pagesOn b.disk, ∃ q, Page.fromBytes (block b.disk.file k) = some q ∧
    q.header.pageId = k ∧ q.Preserved
  stored : ∀ pageId, (g.written pageId).isSome → Current b g pageId ∨ Pending b g pageId

namespace Coherent

variable {b b' : BufferPool n} {g : Callers κ} {f : Fin n} {pageId : ℤ}

theorem room (h : Coherent b g) {k : ℕ} (hk : k < pagesOn b.disk) :
    (k + 1) * PAGE_SIZE ≤ b.disk.file.length := by
  rw [h.size]
  exact Nat.mul_le_mul_right _ hk

/-- A resident page, with everything that is known of it. -/
theorem resident_page (h : Coherent b g) (hf : b.pageTable.get? pageId = some f) :
    ∃ page w, b.frames f = some page ∧ page.Preserved ∧ g.written pageId = some w ∧
      page.contents = w.contents ∧ (page.header.pageId : ℤ) = pageId ∧
        page.header.pageId < pagesOn b.disk := by
  obtain ⟨page, w, hpage, hpres, hw, hcontents⟩ := h.resident pageId f hf
  obtain ⟨h0, hid⟩ := (h.sync.table pageId f).mp hf
  have hnumber := h.sync.number f (by omega)
  rw [BufferPool.numberAt, hpage, hid] at hnumber
  have hpid : (page.header.pageId : ℤ) = pageId := Option.some.inj hnumber
  have hlt := ((h.exists_iff pageId).mp (by rw [hw]; rfl)).2
  exact ⟨page, w, hpage, hpres, hw, hcontents, hpid, by omega⟩

/-- What does not move a page, change a pin count or a dirty bit keeps coherence. -/
theorem of_swept (h : Coherent b g) (hs : BufferPool.Swept b b') : Coherent b' g where
  sync := h.sync.of_sameShape hs.sameShape
  size := by rw [hs.disk, h.size]
  exists_iff q := by rw [hs.disk, h.exists_iff]
  resident q f := by
    rw [hs.pageTable, hs.frames]
    exact h.resident q f
  pinCount q f := by
    rw [hs.pageTable, hs.pinCount]
    exact h.pinCount q f
  held x hx := by
    rw [hs.pageTable]
    exact h.held x hx
  reported := h.reported
  readable := by
    rw [hs.disk]
    exact h.readable
  stored q hq := by
    have hprev := h.stored q hq
    simpa only [Current, Pending, hs.disk, hs.pageTable, hs.isDirty] using hprev

/-- A frame is the frame of one page. -/
theorem page_unique (h : Coherent b g) {p q : ℤ} (hp : b.pageTable.get? p = some f)
    (hq : b.pageTable.get? q = some f) : p = q :=
  ((h.sync.table p f).mp hp).2.symm.trans ((h.sync.table q f).mp hq).2

/-- Writing a frame's page: the file is up to date for it, and nothing else happens. -/
theorem writeFrame (h : Coherent b g) (hf : b.pageTable.get? pageId = some f) :
    ∃ b', b.writeFrame f = (b', .ok ()) ∧ Coherent b' g ∧ Current b' g pageId ∧
      b'.pageTable = b.pageTable ∧ b'.headers = b.headers := by
  obtain ⟨page, w, hpage, hpres, hw, hcontents, hid, hlt⟩ := h.resident_page hf
  obtain ⟨data, page', hwrite, hlen, hread, hsame, hpres', hid'⟩ := hpres.writePage b.disk
  have hroom := h.room hlt
  let b' : BufferPool n := { b with
    disk := { b.disk with file := writeAt b.disk.file (page.header.pageId * PAGE_SIZE) data }
    frames := Function.update b.frames f (some page') }
  have heq : b.writeFrame f = (b', .ok ()) := by rw [BufferPool.writeFrame_eq hpage, hwrite]
  have hblock : ∀ k, block b'.disk.file k =
      if k = page.header.pageId then data else block b.disk.file k := block_writeAt hlen hroom
  have hframe : ∀ f', b'.frames f' = if f' = f then some page' else b.frames f' := fun f' =>
    Function.update_apply ..
  have hcurrent : Current b' g pageId := by
    refine ⟨page', w, ?_, hw, hsame.trans hcontents⟩
    rw [hblock, if_pos (by omega), hread]
  refine ⟨b', heq, ?_, hcurrent, rfl, rfl⟩
  exact {
    sync := by
      have hs := BufferPool.SameShape.writeFrame b f
      rw [heq] at hs
      exact h.sync.of_sameShape hs
    size := (length_writeAt hlen hroom).trans h.size
    exists_iff := h.exists_iff
    resident := by
      intro q f' hq
      rw [hframe]
      split
      · next hf' =>
        subst hf'
        rw [← h.page_unique hf hq]
        exact ⟨page', w, rfl, hpres', hw, hsame.trans hcontents⟩
      · exact h.resident q f' hq
    pinCount := h.pinCount
    held := h.held
    reported := h.reported
    readable := by
      intro k hk
      rw [hblock]
      split
      · next heq => exact ⟨page', hread, hid'.trans heq.symm, hpres'⟩
      · exact h.readable k hk
    stored := by
      intro q hq
      by_cases hqp : q = pageId
      · rw [hqp]
        exact .inl hcurrent
      · -- another page's block is as it was
        have hq0 := ((h.exists_iff q).mp hq).1
        refine (h.stored q hq).imp_left ?_
        rintro ⟨q', w', hq', hw', hc'⟩
        refine ⟨q', w', ?_, hw', hc'⟩
        rw [hblock, if_neg (by omega), hq'] }

/-- A page that is current on file may be marked clean. -/
theorem markClean (h : Coherent b g) (hf : b.pageTable.get? pageId = some f)
    (hc : Current b g pageId) :
    Coherent (b.setHeader f { b.headers f with isDirty := false }) g where
  sync := h.sync.of_sameShape (.setHeader b rfl)
  size := h.size
  exists_iff := h.exists_iff
  resident := h.resident
  pinCount q f' hq := by
    rw [BufferPool.headers_setHeader]
    split
    · next hf' => rw [← h.pinCount q f' hq, hf']
    · exact h.pinCount q f' hq
  held := h.held
  reported := h.reported
  readable := h.readable
  stored q hq := by
    by_cases hqp : q = pageId
    · rw [hqp]
      exact .inl hc
    · refine (h.stored q hq).imp_right ?_
      rintro ⟨f', hf', hdirty⟩
      refine ⟨f', hf', ?_⟩
      rw [BufferPool.headers_setHeader, if_neg]
      · exact hdirty
      · rintro rfl
        exact hqp (h.page_unique hf' hf)

theorem cleanFrame (h : Coherent b g) (hf : b.pageTable.get? pageId = some f) :
    ∃ b', b.cleanFrame f = (b', .ok ()) ∧ Coherent b' g ∧ b'.pageTable = b.pageTable ∧
      ∀ f', (b'.headers f').pageId = (b.headers f').pageId ∧ (b'.headers f').isDirty =
        if f' = f then false else (b.headers f').isDirty := by
  obtain ⟨b₁, hwrite, hco, hcurrent, htable, hheaders⟩ := h.writeFrame hf
  refine ⟨b₁.setHeader f { b₁.headers f with isDirty := false }, ?_,
    hco.markClean (by rwa [htable]) hcurrent, htable, fun f' => ?_⟩
  · simp only [BufferPool.cleanFrame, hwrite]
  · rw [BufferPool.headers_setHeader, hheaders]
    split
    · next heq => rw [heq]; exact ⟨rfl, rfl⟩
    · exact ⟨rfl, rfl⟩

/-! ### Flushing -/

theorem flushPage (h : Coherent b g) (pageId : ℤ) : Coherent (b.flushPage pageId).1 g := by
  unfold BufferPool.flushPage
  split
  · exact h
  next f hf =>
  split
  · obtain ⟨b', hclean, hco, -⟩ := h.cleanFrame hf
    simp only [hclean]
    exact hco
  · exact h

/-- Flushing frames never raises, cleans them and dirties none. -/
theorem flushFrames (h : Coherent b g) (fs : List (Fin n)) :
    ∃ b', b.flushFrames fs = (b', .ok ()) ∧ Coherent b' g ∧
      (∀ f, (b'.headers f).pageId = (b.headers f).pageId) ∧
      ∀ f, (b'.headers f).isDirty = true →
        (b.headers f).isDirty = true ∧ (0 ≤ (b.headers f).pageId → f ∉ fs) := by
  induction fs generalizing b with
  | nil => exact ⟨b, rfl, h, fun _ => rfl, fun f hd => ⟨hd, fun _ => List.not_mem_nil⟩⟩
  | cons f fs ih =>
    unfold BufferPool.flushFrames
    split
    · next hcond =>
      have hf := (h.sync.table _ f).mpr ⟨hcond.1, rfl⟩
      obtain ⟨b₁, hclean, hco, -, hheaders⟩ := h.cleanFrame hf
      obtain ⟨b', hrest, hco', hid, hdirty⟩ := ih hco
      refine ⟨b', by simp only [hclean, hrest], hco', fun f' => (hid f').trans (hheaders f').1, ?_⟩
      intro f' hd
      obtain ⟨hd₁, hnot⟩ := hdirty f' hd
      rw [(hheaders f').2] at hd₁
      split at hd₁
      · cases hd₁
      next hne =>
      refine ⟨hd₁, fun h0 => List.not_mem_cons_of_ne_of_not_mem hne (hnot ?_)⟩
      rwa [(hheaders f').1]
    · next hcond =>
      obtain ⟨b', hrest, hco', hid, hdirty⟩ := ih h
      refine ⟨b', hrest, hco', hid, fun f' hd => ?_⟩
      obtain ⟨hd₁, hnot⟩ := hdirty f' hd
      refine ⟨hd₁, fun h0 => List.not_mem_cons_of_ne_of_not_mem ?_ (hnot h0)⟩
      -- a dirty frame with a page would have been written
      rintro rfl
      obtain ⟨page, hpage, -⟩ := Option.map_eq_some_iff.mp (h.sync.number f' h0)
      exact hcond ⟨h0, hd₁, by rw [hpage]; rfl⟩

/-- After `flush_all` with no pins held the file is up to date. -/
theorem flushAll (h : Coherent b g) : ∃ b', b.flushAll = (b', .ok ()) ∧ Coherent b' g ∧
    (g.pins = [] → ∀ pageId, (g.written pageId).isSome → Current b' g pageId) := by
  obtain ⟨b', hflush, hco, hid, hdirty⟩ := h.flushFrames (List.finRange n)
  refine ⟨b', hflush, hco, fun hpins pageId hw => ?_⟩
  rcases hco.stored pageId hw with hcurrent | ⟨f, hf, hd | ⟨caller, hun⟩⟩
  · exact hcurrent
  · obtain ⟨h0, hheader⟩ := (hco.sync.table pageId f).mp hf
    rw [hid] at hheader
    exact absurd (List.mem_finRange f) ((hdirty f hd).2 (by omega))
  · have := hco.reported _ hun
    rw [hpins] at this
    cases this

/-! ### Pins and changes -/

/-- Pinning a page that is in the pool. -/
theorem pin (h : Coherent b g) (hf : b.pageTable.get? pageId = some f) (caller : κ) :
    Coherent (b.setHeader f { b.headers f with
      pinCount := (b.headers f).pinCount + 1, refBit := true }) (g.pin caller pageId) where
  sync := h.sync.of_sameShape (.setHeader b rfl)
  size := h.size
  exists_iff := h.exists_iff
  resident := h.resident
  pinCount q f' hq := by
    replace hq : b.pageTable.get? q = some f' := hq
    rw [BufferPool.headers_setHeader, Callers.pin, List.countP_cons]
    split
    · next hf' =>
      subst hf'
      rw [h.page_unique hf hq] at *
      simp [h.pinCount q f' hq]
    · next hf' =>
      have hne : pageId ≠ q := by
        rintro rfl
        rw [hf] at hq
        exact hf' (Option.some.inj hq).symm
      simp [h.pinCount q f' hq, hne]
  held x hx := by
    rcases List.mem_cons.mp hx with rfl | hx
    · show (b.pageTable.get? pageId).isSome
      rw [hf]
      rfl
    · exact h.held x hx
  reported x hx := List.mem_cons_of_mem _ (h.reported x hx)
  readable := h.readable
  stored q hq := by
    refine (h.stored q hq).imp_right ?_
    rintro ⟨f', hf', hpending⟩
    refine ⟨f', hf', ?_⟩
    rw [BufferPool.headers_setHeader]
    split
    · next heq => rw [heq] at hpending; exact hpending
    · exact hpending

theorem unpinPage (h : Coherent b g) {caller : κ} {isDirty : Bool}
    (hpin : (caller, pageId) ∈ g.pins) (hreport : isDirty = false →
      (caller, pageId) ∈ g.unreported → (caller, pageId) ∈ g.pins.erase (caller, pageId)) :
    Coherent (b.unpinPage pageId isDirty).1 (g.unpin caller pageId isDirty) := by
  obtain ⟨f, hf : b.pageTable.get? pageId = some f⟩ :=
    Option.isSome_iff_exists.mp (h.held _ hpin)
  have hcount : 0 < g.pins.countP (·.2 = pageId) :=
    List.countP_pos_iff.mpr ⟨_, hpin, by simp⟩
  have hunpin : (b.unpinPage pageId isDirty).1 = b.setHeader f { b.headers f with
      pinCount := (b.headers f).pinCount - 1
      isDirty := (b.headers f).isDirty || isDirty } := by
    rw [← h.pinCount pageId f hf] at hcount
    simp only [BufferPool.unpinPage, hf, if_neg hcount.ne']
  rw [hunpin]
  exact {
    sync := h.sync.of_sameShape (.setHeader b rfl)
    size := h.size
    exists_iff := h.exists_iff
    resident := h.resident
    pinCount := by
      intro q f' hq
      replace hq : b.pageTable.get? q = some f' := hq
      rw [BufferPool.headers_setHeader, Callers.unpin]
      simp only [List.countP_erase, hpin, true_and]
      split
      · next hf' =>
        subst hf'
        have hqp := h.page_unique hf hq
        simp [h.pinCount q f' hq, hqp]
      · next hf' =>
        have hne : pageId ≠ q := by
          rintro rfl
          rw [hf] at hq
          exact hf' (Option.some.inj hq).symm
        simp [h.pinCount q f' hq, hne]
    held := fun x hx => h.held x (List.mem_of_mem_erase hx)
    reported := by
      intro x hx
      simp only [Callers.unpin] at hx ⊢
      by_cases hxp : x = (caller, pageId)
      · subst hxp
        cases isDirty with
        | true => simp at hx
        | false => exact hreport rfl hx
      · refine (List.mem_erase_of_ne hxp).mpr (h.reported x ?_)
        split at hx
        · exact (List.mem_filter.mp hx).1
        · exact hx
    readable := h.readable
    stored := by
      intro q hq
      refine (h.stored q hq).imp_right ?_
      rintro ⟨f', hf', hpending⟩
      refine ⟨f', hf', ?_⟩
      rw [BufferPool.headers_setHeader]
      by_cases hdirty : f' = f ∧ isDirty = true
      · rw [if_pos hdirty.1, hdirty.2]
        exact .inl (Bool.or_true _)
      · -- the frame was dirty before, or a change is still to be reported
        rcases hpending with hd | ⟨c, hc⟩
        · left
          split
          · next heq => rw [heq] at hd; simp [hd]
          · exact hd
        · right
          refine ⟨c, ?_⟩
          simp only [Callers.unpin]
          split
          · next hid =>
            refine List.mem_filter.mpr ⟨hc, ?_⟩
            have hne : q ≠ pageId := by
              rintro rfl
              rw [hf] at hf'
              exact hdirty ⟨(Option.some.inj hf').symm, hid⟩
            simp [hne]
          · exact hc }

/-- A pinned page changes in place; until the change is reported the frame is newer than the
file. -/
theorem modify (h : Coherent b g) {caller : κ} {page : Page} (hpin : (caller, pageId) ∈ g.pins)
    (hid : (page.header.pageId : ℤ) = pageId) (hpres : page.Preserved) :
    Coherent (b.modify pageId page)
      { g.write pageId page with unreported := (caller, pageId) :: g.unreported } := by
  obtain ⟨f, hf : b.pageTable.get? pageId = some f⟩ :=
    Option.isSome_iff_exists.mp (h.held _ hpin)
  have hsync := (BufferPool.modify_spec h.sync hid).1
  have hmodify : b.modify pageId page = b.setFrame f (some page) := by
    simp only [BufferPool.modify, hf]
  rw [hmodify] at hsync ⊢
  have hwritten : ∀ q, (g.write pageId page).written q = if q = pageId then some page
      else g.written q := fun q => Function.update_apply ..
  obtain ⟨-, w, -, -, hw, -⟩ := h.resident_page hf
  have hold : ∀ q, ((g.write pageId page).written q).isSome ↔ (g.written q).isSome := by
    intro q
    rw [hwritten]
    split
    · next heq => rw [heq, hw]; simp
    · rfl
  exact {
    sync := hsync
    size := h.size
    exists_iff := fun q => (hold q).trans (h.exists_iff q)
    resident := by
      intro q f' hq
      replace hq : b.pageTable.get? q = some f' := hq
      rw [BufferPool.frames_setFrame]
      simp only [hwritten]
      by_cases hqp : q = pageId
      · subst hqp
        rw [hf] at hq
        cases hq
        exact ⟨page, page, by rw [if_pos rfl], hpres, by rw [if_pos rfl], rfl⟩
      · have hne : f' ≠ f := by
          rintro rfl
          exact hqp (h.page_unique hq hf)
        rw [if_neg hne, if_neg hqp]
        exact h.resident q f' hq
    pinCount := h.pinCount
    held := h.held
    reported := by
      intro x hx
      rcases List.mem_cons.mp hx with rfl | hx
      · exact hpin
      · exact h.reported x hx
    readable := h.readable
    stored := by
      intro q hq
      by_cases hqp : q = pageId
      · subst hqp
        exact .inr ⟨f, hf, .inr ⟨caller, List.mem_cons_self⟩⟩
      · refine (h.stored q ((hold q).mp hq)).imp ?_ ?_
        · rintro ⟨q', w', hq', hw', hc'⟩
          refine ⟨q', w', hq', ?_, hc'⟩
          show (g.write pageId page).written q = some w'
          rw [hwritten, if_neg hqp, hw']
        · rintro ⟨f', hf', hpending⟩
          exact ⟨f', hf', hpending.imp_right fun ⟨c, hc⟩ => ⟨c, List.mem_cons_of_mem _ hc⟩⟩ }

/-! ### Eviction -/

/-- A page that nobody has pinned and whose frame is clean is current on file. -/
theorem current_of_idle (h : Coherent b g) (hf : b.pageTable.get? pageId = some f)
    (hidle : (b.headers f).pinCount = 0) (hclean : (b.headers f).isDirty = false) :
    Current b g pageId := by
  obtain ⟨-, w, -, -, hw, -⟩ := h.resident_page hf
  rcases h.stored pageId (by rw [hw]; rfl) with hcurrent | ⟨f', hf', hd | ⟨caller, hun⟩⟩
  · exact hcurrent
  · rw [hf] at hf'
    cases hf'
    rw [hclean] at hd
    cases hd
  · -- an unreported change is a pin
    have hcount : 0 < g.pins.countP (·.2 = pageId) :=
      List.countP_pos_iff.mpr ⟨_, h.reported _ hun, by simp⟩
    rw [← h.pinCount pageId f hf, hidle] at hcount
    exact absurd hcount (lt_irrefl 0)

end Coherent

/-- Empty a frame.  Installing a page there has the same effect with or without. -/
def BufferPool.vacate (b : BufferPool n) (f : Fin n) : BufferPool n :=
  (b.setFrame f none).setHeader f {}

theorem BufferPool.install_vacate (b : BufferPool n) (f : Fin n) (pageId : ℤ) (page : Page)
    (d : Bool) : (b.vacate f).install f pageId page d = b.install f pageId page d := by
  simp only [install, vacate, setHeader, setFrame, Function.update_idem]

theorem BufferPool.headers_vacate (b : BufferPool n) (f f' : Fin n) :
    (b.vacate f).headers f' = if f' = f then {} else b.headers f' := headers_setHeader ..

theorem BufferPool.frames_vacate (b : BufferPool n) (f f' : Fin n) :
    (b.vacate f).frames f' = if f' = f then none else b.frames f' := frames_setFrame ..

namespace Coherent

variable {b b' : BufferPool n} {g : Callers κ} {f : Fin n} {pageId : ℤ}

/-- Dropping a page that is not pinned and that the file is up to date for. -/
theorem drop (h : Coherent b g) (hf : b.pageTable.get? pageId = some f)
    (hidle : (b.headers f).pinCount = 0) (hc : Current b g pageId) (evictions : ℕ) :
    Coherent (BufferPool.vacate { b with
      pageTable := b.pageTable.erase pageId, evictions } f) g := by
  have hsync := (BufferPool.deletePage_spec h.sync pageId).1
  simp only [BufferPool.deletePage, hf, hidle, gt_iff_lt, lt_irrefl, if_false] at hsync
  -- the entries that remain lead to other frames
  have hother : ∀ q f', (b.pageTable.erase pageId).get? q = some f' →
      q ≠ pageId ∧ b.pageTable.get? q = some f' ∧ f' ≠ f := by
    intro q f' hq
    rw [Dict.get?_erase] at hq
    split at hq
    · cases hq
    · next hne =>
      refine ⟨Ne.symm hne, hq, ?_⟩
      rintro rfl
      exact hne (h.page_unique hf hq)
  exact {
    sync := hsync.of_sameShape ⟨fun _ => rfl, fun _ => rfl, fun _ => rfl, le_rfl⟩
    size := h.size
    exists_iff := h.exists_iff
    resident := by
      intro q f' hq
      obtain ⟨-, hq', hne⟩ := hother q f' hq
      rw [BufferPool.frames_vacate, if_neg hne]
      exact h.resident q f' hq'
    pinCount := by
      intro q f' hq
      obtain ⟨-, hq', hne⟩ := hother q f' hq
      rw [BufferPool.headers_vacate, if_neg hne]
      exact h.pinCount q f' hq'
    held := by
      intro x hx
      have hne : pageId ≠ x.2 := by
        intro heq
        have hcount : 0 < g.pins.countP (·.2 = pageId) :=
          List.countP_pos_iff.mpr ⟨x, hx, by simp [heq]⟩
        rw [← h.pinCount pageId f hf, hidle] at hcount
        exact absurd hcount (lt_irrefl 0)
      show ((b.pageTable.erase pageId).get? x.2).isSome
      rw [Dict.get?_erase, if_neg hne]
      exact h.held x hx
    reported := h.reported
    readable := h.readable
    stored := by
      intro q hq
      by_cases hqp : q = pageId
      · rw [hqp]
        exact .inl hc
      · refine (h.stored q hq).imp_right ?_
        rintro ⟨f', hf', hpending⟩
        have hne : f' ≠ f := by
          rintro rfl
          exact hqp (h.page_unique hf' hf)
        refine ⟨f', ?_, ?_⟩
        · show (b.pageTable.erase pageId).get? q = some f'
          rw [Dict.get?_erase, if_neg (Ne.symm hqp), hf']
        · rwa [BufferPool.headers_vacate, if_neg hne] }

/-- Nothing is lost with an empty frame. -/
theorem drop_empty (h : Coherent b g) (hempty : (b.headers f).pageId < 0) :
    Coherent (b.vacate f) g := by
  have hother : ∀ q f', b.pageTable.get? q = some f' → f' ≠ f := by
    rintro q f' hq rfl
    have := (h.sync.table q f').mp hq
    omega
  exact {
    sync := by
      constructor
      · intro q f'
        rw [BufferPool.headers_vacate]
        split
        · next heq =>
          subst heq
          constructor
          · exact fun hq => absurd rfl (hother q f' hq)
          · rintro ⟨h0, hq⟩
            simp only at hq
            omega
        · exact h.sync.table q f'
      · intro f' h0
        rw [BufferPool.headers_vacate] at h0 ⊢
        split at h0
        · exact absurd h0 (by decide)
        · next hne =>
          rw [if_neg hne, BufferPool.numberAt, BufferPool.frames_vacate, if_neg hne]
          exact h.sync.number f' h0
      · intro f'
        rw [BufferPool.headers_vacate]
        split
        · show (-1 : ℤ) < (b.disk.numPages : ℤ)
          omega
        · exact h.sync.known f'
    size := h.size
    exists_iff := h.exists_iff
    resident := by
      intro q f' hq
      rw [BufferPool.frames_vacate, if_neg (hother q f' hq)]
      exact h.resident q f' hq
    pinCount := by
      intro q f' hq
      rw [BufferPool.headers_vacate, if_neg (hother q f' hq)]
      exact h.pinCount q f' hq
    held := h.held
    reported := h.reported
    readable := h.readable
    stored := by
      intro q hq
      refine (h.stored q hq).imp_right ?_
      rintro ⟨f', hf', hpending⟩
      exact ⟨f', hf', by rwa [BufferPool.headers_vacate, if_neg (hother q f' hf')]⟩ }

/-- A victim that is empty or not pinned is evicted without losing anything. -/
theorem evict (h : Coherent b g)
    (hvictim : (b.headers f).pageId < 0 ∨ (b.headers f).pinCount = 0) :
    ∃ b', b.evict f = (b', .ok ()) ∧ Coherent (b'.vacate f) g := by
  unfold BufferPool.evict
  by_cases hempty : (b.headers f).pageId < 0
  · simp only [if_pos hempty]
    exact ⟨b, rfl, h.drop_empty hempty⟩
  simp only [if_neg hempty]
  have hidle := hvictim.resolve_left hempty
  have hf : b.pageTable.get? (b.headers f).pageId = some f :=
    (h.sync.table _ f).mpr ⟨by omega, rfl⟩
  cases hdirty : (b.headers f).isDirty with
  | true =>
    obtain ⟨b₁, hwrite, hco, hcurrent, htable, hheaders⟩ := h.writeFrame hf
    have hf₁ : b₁.pageTable.get? (b.headers f).pageId = some f := by rw [htable, hf]
    simp only [if_true, hwrite, hf₁]
    exact ⟨_, rfl, hco.drop hf₁ (by rw [hheaders, hidle]) hcurrent _⟩
  | false =>
    simp only [Bool.false_eq_true, if_false, hf]
    exact ⟨_, rfl, h.drop hf hidle (h.current_of_idle hf hidle hdirty) _⟩

/-- A frame is claimed without losing anything, or all frames are pinned. -/
theorem claimFrame (h : Coherent b g) :
    match b.claimFrame with
    | (b', .ok f) => Coherent (b'.vacate f) g
    | (b', .error _) => Coherent b' g := by
  obtain ⟨hswept, hvictim⟩ := b.findVictimFrame_spec
  rcases heq : b.findVictimFrame with ⟨b₁, e | f⟩ <;> rw [heq] at hswept hvictim <;>
    simp only [BufferPool.claimFrame, heq]
  · exact h.of_swept hswept
  · have hvictim' : (b₁.headers f).pageId < 0 ∨ (b₁.headers f).pinCount = 0 := by
      rw [hswept.pageId, hswept.pinCount]
      exact (hvictim f rfl).imp_right And.right
    obtain ⟨b', hevict, hco⟩ := (h.of_swept hswept).evict hvictim'
    simp only [hevict]
    exact hco

/-- A page that is not in the pool is read as it was last written. -/
theorem read (h : Coherent b g) (habsent : b.pageTable.get? pageId = none)
    (hw : (g.written pageId).isSome) : ∃ page w, b.disk.readPage pageId = .ok page ∧
      g.written pageId = some w ∧ page.contents = w.contents ∧ page.Preserved ∧
        (page.header.pageId : ℤ) = pageId ∧ page.header.pageId < b.disk.numPages := by
  obtain ⟨h0, hlt⟩ := (h.exists_iff pageId).mp hw
  obtain ⟨k, rfl⟩ := Int.eq_ofNat_of_zero_le h0
  have hk : k < pagesOn b.disk := by omega
  obtain ⟨q, hq, hid, hpres⟩ := h.readable k hk
  rcases h.stored _ hw with ⟨q', w, hq', hw', hcontents⟩ | ⟨f, hf, -⟩
  · rw [Int.toNat_natCast, hq] at hq'
    cases hq'
    have hknown : k < b.disk.numPages := hk.trans_le (Nat.min_le_left _ _)
    exact ⟨q, w, readPage_eq hknown (h.room hk) hq, hw', hcontents, hpres, by omega, by omega⟩
  · rw [habsent] at hf
    cases hf

/-- A page comes into an empty frame as it was last written, pinned by the caller who asked. -/
theorem install (h : Coherent b g) (hempty : (b.headers f).pageId < 0)
    (habsent : b.pageTable.get? pageId = none) {page w : Page} (hw : g.written pageId = some w)
    (hcontents : page.contents = w.contents) (hpres : page.Preserved)
    (hid : (page.header.pageId : ℤ) = pageId) (hknown : pageId < b.disk.numPages) (caller : κ)
    {d : Bool} (hcurrent : d = true ∨ Current b g pageId) :
    Coherent (b.install f pageId page d) (g.pin caller pageId) where
  sync := (h.sync.vacated_self hempty).install h.sync d hid habsent hknown
  size := h.size
  exists_iff := h.exists_iff
  resident q f' hq := by
    rw [BufferPool.get?_install] at hq
    rw [BufferPool.frames_install]
    split at hq
    · next heq =>
      cases hq
      rw [if_pos rfl, ← heq]
      exact ⟨page, w, rfl, hpres, hw, hcontents⟩
    · have hne : f' ≠ f := by
        rintro rfl
        have := (h.sync.table q f').mp hq
        omega
      rw [if_neg hne]
      exact h.resident q f' hq
  pinCount q f' hq := by
    rw [BufferPool.get?_install] at hq
    rw [BufferPool.headers_install, Callers.pin, List.countP_cons]
    split at hq
    · next heq =>
      cases hq
      -- nobody has pinned a page that is not in the pool
      have hnone : g.pins.countP (·.2 = q) = 0 := by
        rw [List.countP_eq_zero]
        intro x hx hxq
        have hsome := h.held x hx
        rw [of_decide_eq_true hxq, ← heq, habsent] at hsome
        cases hsome
      rw [if_pos rfl, hnone, if_pos (by simpa using heq)]
    · next hne =>
      have hf' : f' ≠ f := by
        rintro rfl
        have := (h.sync.table q f').mp hq
        omega
      rw [if_neg hf', h.pinCount q f' hq, if_neg (by simpa using hne)]
      rfl
  held x hx := by
    rw [BufferPool.get?_install]
    split
    · rfl
    · next hne =>
      rcases List.mem_cons.mp hx with rfl | hx
      · exact absurd rfl hne
      · exact h.held x hx
  reported x hx := List.mem_cons_of_mem _ (h.reported x hx)
  readable := h.readable
  stored q hq := by
    by_cases hqp : pageId = q
    · subst hqp
      rcases hcurrent with hd | hc
      · refine .inr ⟨f, by rw [BufferPool.get?_install, if_pos rfl], .inl ?_⟩
        rw [BufferPool.headers_install, if_pos rfl, hd]
      · exact .inl hc
    · refine (h.stored q hq).imp_right ?_
      rintro ⟨f', hf', hpending⟩
      have hne : f' ≠ f := by
        rintro rfl
        have := (h.sync.table q f').mp hf'
        omega
      refine ⟨f', by rw [BufferPool.get?_install, if_neg hqp, hf'], ?_⟩
      rwa [BufferPool.headers_install, if_neg hne]

/-- A new page on disk, not yet in the pool. -/
theorem allocate (h : Coherent b g) (pageType : PageType) :
    Coherent { b with disk := (b.disk.allocatePage pageType).1 }
      (g.allocate b.disk.numPages pageType) := by
  rcases Nat.lt_or_ge b.disk.numPages (2 ^ 32) with hlt | hge
  swap
  · -- no number is left: the page is counted but not made
    have hpages : pagesOn { b.disk with numPages := b.disk.numPages + 1 } = pagesOn b.disk := by
      simp only [pagesOn]
      omega
    rw [DiskManager.allocatePage_of_ge _ _ hge, Callers.allocate, if_neg (by omega)]
    have hsync : BufferPool.Sync { b with disk := { b.disk with numPages := b.disk.numPages + 1 } } :=
      h.sync.of_sameShape ⟨fun _ => rfl, fun _ => rfl, fun _ => rfl, Nat.le_succ _⟩
    exact { h with
      sync := hsync
      size := by rw [hpages]; exact h.size
      exists_iff := by rw [hpages]; exact h.exists_iff
      readable := by rw [hpages]; exact h.readable }
  obtain ⟨data, page, halloc, hlen, hread, hcontents, hpres, hid⟩ :=
    b.disk.allocatePage_spec pageType hlt
  have hpages : pagesOn b.disk = b.disk.numPages := Nat.min_eq_left hlt.le
  have hpages' : pagesOn { file := b.disk.file ++ data, numPages := b.disk.numPages + 1 } =
      b.disk.numPages + 1 := Nat.min_eq_left hlt
  have hsize := h.size
  rw [hpages] at hsize
  have hblock : ∀ k ≤ b.disk.numPages, block (b.disk.file ++ data) k =
      if k = b.disk.numPages then data else block b.disk.file k := fun k hk =>
    block_append hsize hlen hk
  have hwritten : ∀ q, (g.allocate b.disk.numPages pageType).written q =
      if q = b.disk.numPages then some (Page.new b.disk.numPages pageType) else g.written q := by
    intro q
    rw [Callers.allocate, if_pos hlt]
    exact Function.update_apply ..
  have hpins : (g.allocate b.disk.numPages pageType).pins = g.pins := by
    rw [Callers.allocate, if_pos hlt]
    rfl
  have hunreported : (g.allocate b.disk.numPages pageType).unreported = g.unreported := by
    rw [Callers.allocate, if_pos hlt]
    rfl
  have hold : ∀ q, (g.written q).isSome → 0 ≤ q ∧ q < b.disk.numPages := by
    intro q hq
    have := (h.exists_iff q).mp hq
    rwa [hpages] at this
  rw [halloc]
  exact {
    sync := h.sync.of_sameShape ⟨fun _ => rfl, fun _ => rfl, fun _ => rfl, Nat.le_succ _⟩
    size := by
      rw [hpages', List.length_append, hsize, hlen, Nat.add_mul, one_mul]
    exists_iff := by
      intro q
      rw [hpages', hwritten]
      split
      · next heq => simp [heq]
      · next hne =>
        rw [h.exists_iff, hpages]
        omega
    resident := by
      intro q f hq
      obtain ⟨p, w, hp, hpp, hw, hc⟩ := h.resident q f hq
      refine ⟨p, w, hp, hpp, ?_, hc⟩
      have := hold q (by rw [hw]; rfl)
      rw [hwritten, if_neg (by omega), hw]
    pinCount := by
      rw [hpins]
      exact h.pinCount
    held := by
      rw [hpins]
      exact h.held
    reported := by
      rw [hpins, hunreported]
      exact h.reported
    readable := by
      intro k hk
      rw [hpages'] at hk
      rw [hblock k (by omega)]
      split
      · next heq => exact ⟨page, hread, hid.trans heq.symm, hpres⟩
      · exact h.readable k (by omega)
    stored := by
      intro q hq
      rw [hwritten] at hq
      by_cases hqn : q = b.disk.numPages
      · refine .inl ⟨page, Page.new b.disk.numPages pageType, ?_, ?_, hcontents⟩
        · rw [hqn, Int.toNat_natCast, hblock _ le_rfl, if_pos rfl, hread]
        · rw [hwritten, if_pos hqn]
      · rw [if_neg hqn] at hq
        have hq0 := hold q hq
        refine (h.stored q hq).imp ?_ ?_
        · rintro ⟨q', w, hq', hw, hc⟩
          refine ⟨q', w, ?_, by rw [hwritten, if_neg hqn, hw], hc⟩
          rw [hblock _ (by omega), if_neg (by omega), hq']
        · rintro ⟨f, hf, hpending⟩
          exact ⟨f, hf, by rwa [hunreported]⟩ }

/-- Fetching an existing page: it is returned as it was last written, or all frames are pinned. -/
theorem fetchPage (h : Coherent b g) (hw : (g.written pageId).isSome) (caller : κ) :
    match b.fetchPage pageId with
    | (b', .ok page?) => Coherent b' (g.pin caller pageId) ∧ ∃ page w, page? = some page ∧
        g.written pageId = some w ∧ page.contents = w.contents
    | (b', .error _) => Coherent b' g := by
  cases hentry : b.pageTable.get? pageId with
  | some f =>
    obtain ⟨page, w, hpage, -, hwritten, hcontents, -⟩ := h.resident_page hentry
    simp only [BufferPool.fetchPage, hentry]
    have hpin := h.pin hentry caller
    exact ⟨hpin.of_swept ⟨rfl, rfl, rfl, fun _ => rfl, fun _ => rfl, fun _ => rfl⟩, page, w, hpage,
      hwritten, hcontents⟩
  | none =>
    have hmiss := h.of_swept (BufferPool.swept_misses b (b.misses + 1))
    have hclaim := hmiss.claimFrame
    rcases heq : ({ b with misses := b.misses + 1 } : BufferPool n).claimFrame with ⟨b', e | f⟩ <;>
      rw [heq] at hclaim <;> simp only [BufferPool.fetchPage, hentry, heq]
    · exact hclaim
    · have habsent : b'.pageTable.get? pageId = none := by
        have hspec := BufferPool.claimFrame_spec hmiss.sync
        rw [heq] at hspec
        rw [hspec.2.2.2.pageTable]
        split
        · rfl
        · exact hentry
      have hco : Coherent (b'.vacate f) g := hclaim
      obtain ⟨page, w, hread, hwritten, hcontents, hpres, hid, hknown⟩ := hco.read habsent hw
      have hcurrent : Current (b'.vacate f) g pageId := by
        refine (hco.stored pageId hw).resolve_right ?_
        rintro ⟨f', hf', -⟩
        rw [show (b'.vacate f).pageTable.get? pageId = none from habsent] at hf'
        cases hf'
      have hempty : ((b'.vacate f).headers f).pageId < 0 := by
        rw [BufferPool.headers_vacate, if_pos rfl]
        decide
      have hinstall := hco.install hempty habsent hwritten hcontents hpres hid (by omega) caller
        (d := false) (.inr hcurrent)
      rw [BufferPool.install_vacate] at hinstall
      simp only [show b'.disk.readPage pageId = .ok page from hread]
      exact ⟨hinstall, page, w, rfl, hwritten, hcontents⟩

theorem newPage (h : Coherent b g) (pageType : PageType) (caller : κ) :
    match b.newPage pageType with
    | (b', .ok page) => Coherent b'
        ((g.allocate b.disk.numPages pageType).pin caller page.header.pageId)
    | (b', .error _) => Coherent b' (g.allocate b.disk.numPages pageType) := by
  have hco := h.allocate pageType
  rcases Nat.lt_or_ge b.disk.numPages (2 ^ 32) with hlt | hge
  swap
  · rw [DiskManager.allocatePage_of_ge _ _ hge] at hco
    simp only [BufferPool.newPage, DiskManager.allocatePage_of_ge _ _ hge]
    exact hco
  obtain ⟨data, page, halloc, -, -, hcontents, hpres, hid⟩ := b.disk.allocatePage_spec pageType hlt
  rw [halloc] at hco
  have hclaim := hco.claimFrame
  have hspec := BufferPool.claimFrame_spec hco.sync
  rcases heq : BufferPool.claimFrame { b with
    disk := ⟨b.disk.file ++ data, b.disk.numPages + 1⟩ } with ⟨b', e | f⟩ <;>
    rw [heq] at hclaim hspec <;> simp only [BufferPool.newPage, halloc, heq]
  · exact hclaim
  have hco' : Coherent (b'.vacate f) (g.allocate b.disk.numPages pageType) := hclaim
  have hempty : ((b'.vacate f).headers f).pageId < 0 := by
    rw [BufferPool.headers_vacate, if_pos rfl]
    decide
  have habsent : (b'.vacate f).pageTable.get? page.header.pageId = none := by
    show b'.pageTable.get? page.header.pageId = none
    rw [hspec.2.2.2.pageTable]
    split
    · rfl
    · -- no resident page has the new number
      rw [Option.eq_none_iff_forall_ne_some]
      intro f' hf'
      have hheader := ((h.sync.table _ f').mp hf').2
      have := h.sync.known f'
      omega
  have hwritten : (g.allocate b.disk.numPages pageType).written page.header.pageId =
      some (Page.new b.disk.numPages pageType) := by
    rw [Callers.allocate, if_pos hlt, hid]
    exact Function.update_self ..
  have hknown : (page.header.pageId : ℤ) < (b'.vacate f).disk.numPages := by
    have hle : b.disk.numPages + 1 ≤ b'.disk.numPages := hspec.2.2.2.numPages
    show (page.header.pageId : ℤ) < b'.disk.numPages
    omega
  have hinstall := hco'.install hempty habsent hwritten hcontents hpres rfl hknown caller
    (d := true) (.inl rfl)
  rwa [BufferPool.install_vacate] at hinstall

end Coherent

end PySQL.Storage
