import PySQL.Storage.HeapRecords

/-!
# Inserts into heap files

An insert fills a slot of the first page that takes the record, or of a new page that is linked
to the end of the chain.
-/

namespace PySQL.Storage

open Query Lib BufferPool

set_option linter.unusedSectionVars false

variable {n : ℕ} [NeZero n] {b b' b₁ : BufferPool n} {pins unreported : List ℤ}
  {written written' : ℤ → Option Page} {pageId : ℕ} {q : ℤ} {w page : Page}

/-- The pool serves the pages as they were last written; some changes are not reported yet. -/
def BufferPool.Edited (b : BufferPool n) (pins unreported : List ℤ) (written : ℤ → Option Page) :
    Prop :=
  Coherent b (⟨pins.map fun pageId => ((), pageId), unreported.map fun pageId => ((), pageId),
    written⟩ : Callers Unit)

theorem edited_modify (h : b.Edited pins unreported written) (hq : q ∈ pins)
    (hid : (page.header.pageId : ℤ) = q) (hpres : page.Preserved) :
    (b.modify q page).Edited pins (q :: unreported) (Function.update written q (some page)) := by
  have hpinned : ((), q) ∈ pins.map fun pageId => ((), pageId) := List.mem_map.mpr ⟨q, hq, rfl⟩
  exact Coherent.modify h hpinned hid hpres

theorem edited_unpin (h : b.Edited (q :: pins) unreported written) :
    (b.unpinPage q true).1.Edited pins (unreported.filter (· ≠ q)) written := by
  have hunpin : Coherent (b.unpinPage q true).1 (Callers.unpin _ () q true) :=
    Coherent.unpinPage h (by simp) (by simp)
  have hg : Callers.unpin ⟨(q :: pins).map fun pageId => ((), pageId),
      unreported.map fun pageId => ((), pageId), written⟩ () q true =
      ⟨pins.map fun pageId => ((), pageId),
        (unreported.filter (· ≠ q)).map fun pageId => ((), pageId), written⟩ := by
    simp [Callers.unpin, List.filter_map, Function.comp_def]
  rwa [hg] at hunpin

namespace HeapFile

variable {heap : HeapFile} {rid : RecordId} {record : Bytes} {ids : List ℕ}

/-! ## The pages that there are -/

/-- The first page that takes the record has the room that its header says. -/
def FitsFirst (written : ℤ → Option Page) (record : Bytes) : List ℕ → Prop
  | [] => True
  | pageId :: rest => ∀ page ∈ written pageId,
    if record.length + SLOT_SIZE ≤ page.header.freeSpace then page.Fits (.insert record)
    else FitsFirst written record rest

/-- What filling a slot does to the page and the slot's record. -/
structure Fills (w page : Page) (slotIndex : ℕ) (record : Bytes) : Prop where
  kept : page.Kept
  nextPage : page.header.nextPage = w.header.nextPage
  vacant : w.readRecord slotIndex = none
  reads : page.readRecord = Function.update w.readRecord slotIndex (some record)
  packed : w.Packed → page.Packed

theorem fills_of_kept {p : Page} (h : p.Kept) (hrec : record ≠ [])
    (hadm : record.length + SLOT_SIZE ≤ p.header.freeSpace) (hfits : p.Fits (.insert record)) :
    ∃ i, (p.insertRecord record).2 = some i ∧ Fills p (p.insertRecord record).1 i record := by
  obtain ⟨i, hslot, hkept, hvacant, hreads⟩ := h.insert hrec hadm hfits
  exact ⟨i, hslot, hkept, p.nextPage_insertRecord record, hvacant, hreads,
    fun hp => hp.insertRecord hrec⟩

theorem Fills.of_contents {p : Page} {i : ℕ} (h : Fills p page i record)
    (hc : p.contents = w.contents) : Fills w page i record := by
  have hreads := (Page.contents_eq_iff.mp hc).2.2
  have hnext := Page.field_of_contents PageHeader.nextPage (fun _ => rfl) hc
  exact ⟨h.kept, h.nextPage.trans hnext, hreads ▸ h.vacant, hreads ▸ h.reads,
    fun hw => h.packed ((Page.SameShape.of_contents hc).packed hw)⟩

/-- The pages are tried in turn: one of them takes the record, or none has room. -/
theorem tryPages_cases (h : b.Serves pins written) (hroom : pins.toFinset.card < n)
    (hrec : record ≠ []) (hpages : ∀ id ∈ ids, ∃ p, written (id : ℕ) = some p ∧ p.Kept)
    (hfits : FitsFirst written record ids) :
    (∃ b', tryPages record ids b = (.ok none, b') ∧ b'.Serves pins written ∧
      ∀ id ∈ ids, Refuses written record id) ∨
    ∃ b' rid w page, tryPages record ids b = (.ok (some rid), b') ∧ rid.pageId ∈ ids ∧
      written rid.pageId = some w ∧ Fills w page rid.slotIndex record ∧
      record.length + SLOT_SIZE ≤ w.header.freeSpace ∧
      b'.Serves pins (Function.update written rid.pageId (some page)) := by
  induction ids generalizing b with
  | nil => exact .inl ⟨b, rfl, h, by simp⟩
  | cons id rest ih =>
    rw [List.forall_mem_cons] at hpages
    obtain ⟨⟨w, hw, hkept⟩, hrest⟩ := hpages
    have hfits := hfits w hw
    by_cases hadm : record.length + SLOT_SIZE ≤ w.header.freeSpace
    · -- this page takes it
      rw [if_pos hadm] at hfits
      obtain ⟨b₁, p, hfetch, hserves, hcontents, hpres, hid⟩ := fetchPage_eq h hroom hw
      have hshape := Page.SameShape.of_contents hcontents
      obtain ⟨i, hslot, hfills⟩ := fills_of_kept (hkept.of_contents hpres hcontents) hrec
        (hshape.freeSpace ▸ hadm) (hshape.fits_insert hfits)
      obtain ⟨b', hwrite, hserves'⟩ := serves_rewrite hserves
        ((p.pageId_insertRecord record).trans hid) hfills.kept.intact.documented.preserved
      refine .inr ⟨b', ⟨id, i⟩, w, _, ?_, List.mem_cons_self, hw, hfills.of_contents hcontents,
        hadm, hserves'⟩
      rw [tryPages, Effect.bind_ok hfetch]
      rcases heq : p.insertRecord record with ⟨page, slot⟩
      rw [heq] at hslot hwrite
      obtain rfl : slot = some i := hslot
      exact hwrite (Option RecordId) (some ⟨id, i⟩)
    · rw [if_neg hadm] at hfits
      have hrefuses : Refuses written record id := ⟨w, hw, hadm⟩
      obtain ⟨b₁, hturn, hserves⟩ : ∃ b', tryPages record (id :: rest) b =
          tryPages record rest b' ∧ b'.Serves pins written := tryPages_of_refuses h hroom hrefuses
      rw [hturn]
      rcases ih hserves hrest hfits with ⟨b', htry, hserves', hall⟩ | hsome
      · exact .inl ⟨b', htry, hserves', List.forall_mem_cons.mpr ⟨hrefuses, hall⟩⟩
      · obtain ⟨b', rid, w', page, htry, hmem, hrest⟩ := hsome
        exact .inr ⟨b', rid, w', page, htry, List.mem_cons_of_mem _ hmem, hrest⟩

/-! ## A new page at the end of the chain -/

/-- The new page is linked to the last one; its own link is not reported yet. -/
theorem linkPage_eq {prev new : ℕ} (h : b.Serves [(new : ℤ)] written) (hn : 2 ≤ n)
    (hne : prev ≠ new) (hw : written prev = some w) (hkept : w.Kept) (hnew : new < 2 ^ 32)
    (hprev : prev < 2 ^ 32) (hpage : page.Kept) (hid : page.header.pageId = new) :
    ∃ b' last, linkPage (some prev) page b =
        (.ok (page.link page.header.nextPage prev), b') ∧
      b'.Edited [(new : ℤ)] [(new : ℤ)] (Function.update (Function.update written prev (some last))
        new (some (page.link page.header.nextPage prev))) ∧
      last.Kept ∧ last.header.nextPage = new ∧ last.readRecord = w.readRecord ∧
      last.SameShape w := by
  have hroom : ([(new : ℤ)] : List ℤ).toFinset.card < n := by
    rw [List.toFinset_cons, List.toFinset_nil, insert_empty_eq, Finset.card_singleton]
    omega
  obtain ⟨b₁, p, hfetch, hserves, hcontents, hpres, hpid⟩ := fetchPage_eq h hroom hw
  let last := p.link new p.header.prevPage
  have hp := hkept.of_contents hpres hcontents
  have hlast : last.Kept := hp.link hnew hp.intact.header.prevPage
  have hlinked : (page.link page.header.nextPage prev).Kept :=
    hpage.link hpage.intact.header.nextPage hprev
  have hedited : b₁.Edited [(prev : ℤ), new] [] written := hserves
  have hlastId : (last.header.pageId : ℤ) = prev := congrArg Nat.cast hpid
  have hlinkedId : ((page.link page.header.nextPage prev).header.pageId : ℤ) = new :=
    congrArg Nat.cast hid
  have hmodify := edited_modify hedited (by simp) hlastId hlast.intact.documented.preserved
  have hmodify' := edited_modify hmodify (by simp) hlinkedId hlinked.intact.documented.preserved
  have hunpin := edited_unpin hmodify'
  have hunreported : ([(new : ℤ), prev].filter (· ≠ (prev : ℤ))) = [(new : ℤ)] := by
    have hne' : (new : ℤ) ≠ prev := by exact_mod_cast hne.symm
    simp [hne']
  rw [hunreported] at hunpin
  have hshape := Page.SameShape.of_contents hcontents
  refine ⟨_, last, ?_, hunpin, hlast, rfl, (Page.contents_eq_iff.mp hcontents).2.2,
    hshape.slots, hshape.freeSpace, hshape.dataEnd, hshape.numSlots⟩
  subst hid
  simp only [linkPage]
  rw [Effect.bind_ok hfetch]
  rfl

/-- A page that is linked to the last one ends the chain. -/
theorem Chain.snoc {first prev new : ℕ} {last : Page} (h : Chain written first ids)
    (hprev : ids.getLast? = some prev) (hlast : written' prev = some last)
    (hlink : last.header.nextPage = new) (hnew : new ≠ INVALID_PAGE_ID)
    (hpage : written' new = some page) (hend : page.header.nextPage = INVALID_PAGE_ID)
    (hother : ∀ id ∈ ids, id ≠ prev → written' (id : ℕ) = written id) :
    Chain written' first (ids ++ [new]) := by
  have hnodup := h.nodup
  induction h with
  | nil => cases hprev
  | @cons current p rest hne hp hrest ih =>
    rw [List.nodup_cons] at hnodup
    cases rest with
    | nil =>
      obtain rfl : current = prev := by simpa using hprev
      refine .cons hne hlast ?_
      rw [hlink]
      refine .cons hnew hpage ?_
      rw [hend]
      exact .nil
    | cons id rest =>
      rw [List.getLast?_cons_cons] at hprev
      have hmem : prev ∈ id :: rest := List.mem_of_getLast? hprev
      have hsame : written' current = written current := by
        refine hother current List.mem_cons_self ?_
        rintro rfl
        exact hnodup.1 hmem
      refine .cons hne (hsame.trans hp) (ih hprev ?_ hnodup.2)
      exact fun id hid => hother id (List.mem_cons_of_mem _ hid)

/-- The file with a page more. -/
def grow (heap : HeapFile) (new : ℕ) : HeapFile := { heap with pageIds := heap.pageIds ++ [new] }

theorem Held.grow {prev new : ℕ} {last : Page} (h : heap.Held written)
    (hprev : heap.pageIds.getLast? = some prev) (hw : written prev = some w)
    (hlast : written' prev = some last) (hkept : last.Kept) (hlink : last.header.nextPage = new)
    (hreads : last.readRecord = w.readRecord) (hnew : new ≠ INVALID_PAGE_ID)
    (hnone : written new = none) (hpage : written' new = some page) (hpkept : page.Kept)
    (hend : page.header.nextPage = INVALID_PAGE_ID)
    (hother : ∀ id : ℕ, id ≠ prev → id ≠ new → written' id = written id) :
    Moves heap (heap.grow new) written written' ∧ ∀ rid, (heap.grow new).recordAt written' rid =
      if rid.pageId = new then page.readRecord rid.slotIndex else heap.recordAt written rid := by
  have hout : new ∉ heap.pageIds := by
    intro hmem
    obtain ⟨p, hp, -⟩ := h.pages new hmem
    rw [hnone] at hp
    cases hp
  have hin : prev ∈ heap.pageIds := List.mem_of_getLast? hprev
  have hkeep : ∀ id ∈ heap.pageIds, id ≠ prev → written' (id : ℕ) = written id := by
    intro id hid hne
    refine hother id hne ?_
    rintro rfl
    exact hout hid
  refine ⟨⟨⟨h.columns, ?_, ?_, ?_⟩, rfl, ?_, ?_⟩, ?_⟩
  · show heap.pageIds ++ [new] ≠ []
    exact List.append_ne_nil_of_right_ne_nil _ (List.cons_ne_nil _ _)
  · have hhead : (heap.pageIds ++ [new]).headD INVALID_PAGE_ID =
        heap.pageIds.headD INVALID_PAGE_ID := by
      cases hids : heap.pageIds with
      | nil => exact absurd hids h.nonempty
      | cons id rest => rfl
    show Chain written' ((heap.pageIds ++ [new]).headD INVALID_PAGE_ID) (heap.pageIds ++ [new])
    rw [hhead]
    exact h.chain.snoc hprev hlast hlink hnew hpage hend hkeep
  · intro id hid
    rcases List.mem_append.mp hid with hid | hid
    · by_cases hne : id = prev
      · exact ⟨last, hne ▸ hlast, hkept⟩
      · rw [hkeep id hid hne]
        exact h.pages id hid
    · rw [List.mem_singleton.mp hid]
      exact ⟨page, hpage, hpkept⟩
  · intro id hid hsome
    refine hother id ?_ ?_
    · rintro rfl
      exact hid hin
    · rintro rfl
      rw [hnone] at hsome
      cases hsome
  · intro id hid
    rcases List.mem_append.mp hid with hid | hid
    · exact .inl hid
    · rw [List.mem_singleton.mp hid]
      exact .inr hnone
  · intro rid
    by_cases hnewid : rid.pageId = new
    · rw [if_pos hnewid]
      refine recordAt_of_page ?_ (hnewid ▸ hpage)
      rw [hnewid]
      exact List.mem_append_right _ (List.mem_singleton_self new)
    · rw [if_neg hnewid]
      by_cases hid : rid.pageId ∈ heap.pageIds
      · have hid' : rid.pageId ∈ (heap.grow new).pageIds := List.mem_append_left _ hid
        by_cases hne : rid.pageId = prev
        · rw [recordAt_of_page hid' (hne ▸ hlast), recordAt_of_page hid (hne ▸ hw), hreads]
        · rw [recordAt, recordAt, if_pos hid, if_pos hid', hkeep _ hid hne]
      · have hid' : rid.pageId ∉ (heap.grow new).pageIds := by
          intro hmem
          rcases List.mem_append.mp hmem with hmem | hmem
          · exact hid hmem
          · exact hnewid (List.mem_singleton.mp hmem)
        rw [recordAt, recordAt, if_neg hid, if_neg hid']

/-- The page numbers of a pool that serves its pages. -/
theorem lt_of_written (h : b.Serves pins written) (id : ℕ) (hid : (written id).isSome) :
    id < b.disk.numPages ∧ id < 2 ^ 32 := by
  have hlt := ((Coherent.exists_iff h id).mp hid).2
  unfold pagesOn at hlt
  omega

theorem written_numPages (h : b.Serves pins written) : written b.disk.numPages = none := by
  have hnot := (Coherent.exists_iff h b.disk.numPages).not.mpr (by
    simp only [pagesOn]
    omega)
  simpa using hnot

/-- A page that is as a fresh one takes every record up to that size. -/
theorem insert_vacant {p : Page} {k : ℕ} (h : p.Kept)
    (hshape : p.SameShape (Page.new k .heapData)) (hempty : ∀ j, p.readRecord j = none)
    (hrec : record ≠ []) : ∃ i,
      (p.insertRecord record).2 = (if record.length ≤ MAX_RECORD then some i else none) ∧
      (p.insertRecord record).1.Kept ∧
      ∀ j, (p.insertRecord record).1.readRecord j =
        if record.length ≤ MAX_RECORD ∧ j = i then some record else none := by
  have hspace : p.header.freeSpace = 4064 := hshape.freeSpace
  by_cases hfits : record.length ≤ MAX_RECORD
  · have hadm : record.length + SLOT_SIZE ≤ p.header.freeSpace := by
      rw [hspace, SLOT_SIZE]
      simp only [MAX_RECORD, PAGE_SIZE, HEADER_SIZE, SLOT_SIZE] at hfits
      omega
    obtain ⟨i, hslot, hkept, -, hreads⟩ := h.insert hrec hadm
      (hshape.fits_insert (Page.fits_new k .heapData record))
    refine ⟨i, by rw [if_pos hfits, hslot], hkept, fun j => ?_⟩
    rw [hreads, Function.update_apply, hempty j]
    simp only [hfits, true_and]
  · have hadm : ¬ record.length + SLOT_SIZE ≤ p.header.freeSpace := by
      rw [hspace, SLOT_SIZE]
      simp only [MAX_RECORD, PAGE_SIZE, HEADER_SIZE, SLOT_SIZE] at hfits
      omega
    rw [Page.insertRecord_refused hadm]
    refine ⟨0, by rw [if_neg hfits], h, fun j => ?_⟩
    rw [hempty j, if_neg (fun hj => hfits hj.1)]

/-- A record of more bytes raises, but its page stays. -/
theorem insertNew_eq (h : b.Serves [] written) (hn : 2 ≤ n) (hheld : heap.Held written)
    (hnum : b.disk.numPages < INVALID_PAGE_ID) (hrec : record ≠ []) :
    ∃ b' written' i, b'.Serves [] written' ∧
      insertNew record heap.pageIds.getLast? (heap, b) =
        (if record.length ≤ MAX_RECORD then .ok ⟨b.disk.numPages, i⟩
          else .error (.python (.runtimeError "Record too large to fit in a single page")),
        (heap.grow b.disk.numPages, b')) ∧
      Moves heap (heap.grow b.disk.numPages) written written' ∧
      heap.recordAt written ⟨b.disk.numPages, i⟩ = none ∧
      ((heap.grow b.disk.numPages).recordAt written' =
        if record.length ≤ MAX_RECORD then
          Function.update (heap.recordAt written) ⟨b.disk.numPages, i⟩ (some record)
        else heap.recordAt written) ∧
      (heap.Packed written → (heap.grow b.disk.numPages).Packed written') := by
  have hroom : ([] : List ℤ).toFinset.card < n := by
    rw [List.toFinset_nil, Finset.card_empty]
    omega
  have hnum' : b.disk.numPages < 2 ^ 32 := by
    rw [INVALID_PAGE_ID] at hnum
    omega
  set new := b.disk.numPages with hnewid
  have hnone : written new = none := written_numPages h
  have hprev := List.getLast?_eq_some_getLast hheld.nonempty
  set prev := heap.pageIds.getLast hheld.nonempty
  obtain ⟨w, hw, hkept⟩ := hheld.pages prev (List.mem_of_getLast? hprev)
  have hprevlt := lt_of_written h prev (by rw [hw]; rfl)
  have hne : prev ≠ new := by omega
  -- the page is allocated and linked
  obtain ⟨b₁, page, hnew, hserves, hcontents, hpres, hid⟩ := newPage_eq h hroom hnum'
  have hfresh : (Page.new new .heapData).Kept := Page.kept_new hnum' _
  have hpage := hfresh.of_contents hpres hcontents
  have hend : page.header.nextPage = INVALID_PAGE_ID :=
    Page.field_of_contents PageHeader.nextPage (fun _ => rfl) hcontents
  have hshape := Page.SameShape.of_contents hcontents
  obtain ⟨b₂, last, hlink, hedited, hlast, hlastnext, hlastreads, hlastshape⟩ := linkPage_eq hserves hn hne
    (by rw [Function.update_of_ne (by exact_mod_cast hne), hw]) hkept hnum' hprevlt.2 hpage hid
  set linked := page.link page.header.nextPage prev
  have hlinked : linked.Kept := hpage.link hpage.intact.header.nextPage hprevlt.2
  -- the record is put on it
  obtain ⟨i, hslot, hpkept, hpreads⟩ := insert_vacant (k := new) hlinked
    ⟨hshape.slots, hshape.freeSpace, hshape.dataEnd, hshape.numSlots⟩ (by
      intro j
      show page.readRecord j = none
      rw [(Page.contents_eq_iff.mp hcontents).2.2]
      rfl) hrec
  have hpid := (linked.pageId_insertRecord record).trans hid
  have hpnext := (linked.nextPage_insertRecord record).trans hend
  rcases hinsert : linked.insertRecord record with ⟨p, slot⟩
  rw [hinsert] at hslot hpkept hpreads hpid hpnext
  dsimp only at hslot hpkept hpreads hpid hpnext
  have hmodify := edited_modify hedited (by simp) (congrArg Nat.cast hpid)
    hpkept.intact.documented.preserved
  have hunpin := edited_unpin hmodify
  rw [show ([(new : ℤ), new].filter (· ≠ (new : ℤ))) = [] by simp] at hunpin
  have hserves' : ((b₂.modify new p).unpinPage new true).1.Serves [] _ := hunpin
  rw [Function.update_idem] at hserves'
  have hpast : ∀ q : ℕ, q ≠ prev → q ≠ new → Function.update (Function.update (Function.update
      written new (some (Page.new new .heapData))) prev (some last)) new (some p) (q : ℤ) =
        written q := by
    intro q hq hq'
    rw [Function.update_of_ne (by exact_mod_cast hq'), Function.update_of_ne (by exact_mod_cast hq),
      Function.update_of_ne (by exact_mod_cast hq')]
  obtain ⟨hmoves, hrecords⟩ := hheld.grow hprev hw (by
      rw [Function.update_of_ne (by exact_mod_cast hne), Function.update_self]) hlast hlastnext
    hlastreads hnum.ne hnone (Function.update_self ..) hpkept hpnext hpast
  have hppacked : p.Packed := by
    have hlinkedShape : linked.SameShape (Page.new new .heapData) :=
      ⟨hshape.slots, hshape.freeSpace, hshape.dataEnd, hshape.numSlots⟩
    have hpacked := (hlinkedShape.packed (Page.packed_new new .heapData)).insertRecord hrec
    rwa [hinsert] at hpacked
  have hpacked : heap.Packed written → (heap.grow new).Packed (Function.update (Function.update
      (Function.update written new (some (Page.new new .heapData))) prev (some last)) new
        (some p)) := by
    intro hold id hid q hq
    by_cases hnewid : id = new
    · rw [hnewid, Function.update_self] at hq
      exact Option.some.inj hq ▸ hppacked
    · have hid : id ∈ heap.pageIds := by
        rcases List.mem_append.mp hid with hid | hid
        · exact hid
        · exact absurd (List.mem_singleton.mp hid) hnewid
      by_cases hprevid : id = prev
      · -- the last page has the slots that it had
        rw [hprevid, Function.update_of_ne (by exact_mod_cast hne), Function.update_self] at hq
        exact Option.some.inj hq ▸ hlastshape.packed (hold prev (hprevid ▸ hid) w hw)
      · rw [hpast id hprevid hnewid] at hq
        exact hold id hid q hq
  have hvacant : ∀ j, heap.recordAt written ⟨new, j⟩ = none := by
    intro j
    unfold recordAt
    rw [hnone, Option.bind_none, ite_self]
  refine ⟨_, _, i, hserves', ?_, hmoves, hvacant i, ?_, hpacked⟩
  · have hkeep : keepPage page.header.pageId (heap, b₁) =
        (.ok (), (heap.grow page.header.pageId, b₁)) := rfl
    rw [hprev, insertNew, Effect.bind_ok (inPool_eq hnew), Effect.bind_ok hkeep,
      Effect.bind_ok (inPool_eq hlink), hinsert]
    simp only [hid]
    have hwrite : inPool (modifyPage new p) (heap.grow new, b₂) =
        (.ok (), (heap.grow new, b₂.modify new p)) := rfl
    have hunpin : inPool (unpinPage new true) (heap.grow new, b₂.modify new p) =
        (.ok (), (heap.grow new, ((b₂.modify new p).unpinPage new true).1)) := rfl
    rw [Effect.bind_ok hwrite, Effect.bind_ok hunpin, hslot]
    split <;> rfl
  · funext rid
    rw [hrecords]
    obtain ⟨q, j⟩ := rid
    by_cases hq : q = new
    · subst hq
      rw [if_pos rfl, hpreads]
      by_cases hfits : record.length ≤ MAX_RECORD
      · rw [if_pos hfits, Function.update_apply, hvacant j]
        simp [hfits]
      · rw [if_neg hfits, if_neg (fun hj => hfits hj.1), hvacant j]
    · have hother : (⟨q, j⟩ : RecordId) ≠ ⟨new, i⟩ := fun heq => hq (congrArg RecordId.pageId heq)
      rw [if_neg hq]
      split
      · rw [Function.update_of_ne hother]
      · rfl

/-- A page that takes a record has at least that much room. -/
theorem le_maxRecord {p : Page} (h : p.Kept)
    (hadm : record.length + SLOT_SIZE ≤ p.header.freeSpace) : record.length ≤ MAX_RECORD := by
  have hle := h.accounts.freeSpace_le
  simp only [MAX_RECORD, PAGE_SIZE, HEADER_SIZE, SLOT_SIZE] at hle hadm ⊢
  omega

theorem insert_eq (py : Py) (values : Row) (h : b.Serves [] written) (hn : 2 ≤ n)
    (hheld : heap.Held written) (hnum : b.disk.numPages < INVALID_PAGE_ID)
    (hfits : ∀ data, RecordSerializer.serialize py heap.schema values = .ok data →
      FitsFirst written data heap.pageIds) :
    ∃ r heap' b' written', insert py values (heap, b) = (r, (heap', b')) ∧
      b'.Serves [] written' ∧ Moves heap heap' written written' ∧
      (heap.table written).Inserts py values r (heap'.table written') ∧
      (∀ rid, r = .ok rid → rid.pageId ∈ heap'.pageIds) ∧
      (heap.Packed written → heap'.Packed written') := by
  have hread : (Effect.read Prod.fst : HeapCalls n HeapFile) (heap, b) = (.ok heap, (heap, b)) :=
    rfl
  rw [insert, Effect.bind_ok hread]
  cases hserialize : RecordSerializer.serialize py heap.schema values with
  | error e =>
    refine ⟨.error (.python e), heap, b, written, ?_, h, .refl hheld, .unserializable hserialize,
      ?_, id⟩
    · rfl
    · intro rid hrid
      cases hrid
  | ok data =>
    have hrec := RecordSerializer.serialize_ne_nil hheld.columns hserialize
    have hroom : ([] : List ℤ).toFinset.card < n := by
      rw [List.toFinset_nil, Finset.card_empty]
      omega
    rw [Effect.bind_ok ofPython_ok]
    rcases tryPages_cases h hroom hrec hheld.pages (hfits data hserialize) with
      ⟨b₁, htry, hserves, -⟩ | ⟨b₁, rid, w, page, htry, hmem, hw, hfills, hadm, hserves⟩
    · -- no page has room
      have hsame := pagesOn_eq h hserves
      have hnum₁ : b₁.disk.numPages < INVALID_PAGE_ID := by
        simp only [pagesOn, INVALID_PAGE_ID] at hsame hnum ⊢
        omega
      obtain ⟨b', written', i, hserves', hcall, hmoves, hvacant, hrecords, hpacked⟩ :=
        insertNew_eq hserves hn hheld hnum₁ hrec
      by_cases hlen : data.length ≤ MAX_RECORD
      · rw [if_pos hlen] at hcall hrecords
        refine ⟨.ok ⟨b₁.disk.numPages, i⟩, heap.grow b₁.disk.numPages, b', written', ?_, hserves',
          hmoves, ?_, ?_, hpacked⟩
        · exact (Effect.bind_ok (inPool_eq htry)).trans hcall
        · have htable : (heap.grow b₁.disk.numPages).table written' =
              (heap.table written).put ⟨b₁.disk.numPages, i⟩ (some data) := table_put rfl hrecords
          rw [htable]
          exact .stored hserialize hlen hvacant
        · intro rid hrid
          cases hrid
          exact List.mem_append_right _ (List.mem_singleton_self _)
      · rw [if_neg hlen] at hcall hrecords
        refine ⟨.error (.python (.runtimeError "Record too large to fit in a single page")),
          heap.grow b₁.disk.numPages, b', written', ?_, hserves', hmoves, ?_, ?_, hpacked⟩
        · exact (Effect.bind_ok (inPool_eq htry)).trans hcall
        · have htable : (heap.grow b₁.disk.numPages).table written' = heap.table written :=
            table_same rfl hrecords
          rw [htable]
          exact .tooLarge hserialize (not_le.mp hlen)
        · intro rid hrid
          cases hrid
    · obtain ⟨w', hw', hkept⟩ := hheld.pages _ hmem
      obtain rfl : w = w' := Option.some.inj (hw.symm.trans hw')
      refine ⟨.ok rid, heap, b₁, _, ?_, hserves,
        hheld.rewrite hmem hw hfills.kept hfills.nextPage, ?_, ?_, ?_⟩
      · rw [Effect.bind_ok (inPool_eq htry)]
        rfl
      · rw [table_put rfl (recordAt_rewrite hmem hw hfills.reads)]
        refine .stored hserialize (le_maxRecord hkept hadm) ?_
        exact (recordAt_of_page hmem hw).trans hfills.vacant
      · intro rid' hrid
        cases hrid
        exact hmem
      · intro hold id hid q hq
        by_cases hsame : id = rid.pageId
        · rw [hsame, Function.update_self] at hq
          exact Option.some.inj hq ▸ hfills.packed (hold _ hmem w hw)
        · rw [Function.update_of_ne (by exact_mod_cast hsame)] at hq
          exact hold id hid q hq

end HeapFile

end PySQL.Storage
