import PySQL.Storage.Heap
import PySQL.Storage.PageReplace

/-!
# Updating heap files

The rows of a table are rewritten while it is scanned.
-/

namespace PySQL.Storage

open Query Lib

set_option linter.unusedSectionVars false

variable {n : ℕ} [NeZero n]

namespace HeapFile

def update (py : Py) (heap : HeapFile) (rid : RecordId) (values : Row) : PoolCalls n Bool := do
  let recordData ← ofPython (RecordSerializer.serialize py heap.schema values)
  let page ← fetchPage rid.pageId
  let (page, success) := page.updateRecord rid.slotIndex recordData
  modifyPage rid.pageId page
  unpinPage rid.pageId success
  return success

/-- One turn of the loop of `_exec_update`: `replace` gives the new values of a row that is to be
updated. -/
def updateRow (py : Py) (heap : HeapFile) (replace : Row → Except PyError (Option Row))
    (rowsUpdated : ℕ) (rid : RecordId) (values : Row) : PoolCalls n ℕ := do
  match ← ofPython (replace values) with
  | none => return rowsUpdated
  | some newValues => do
    let _ ← heap.update py rid newValues
    return rowsUpdated + 1

def updateWhere (py : Py) (heap : HeapFile) (replace : Row → Except PyError (Option Row)) :
    PoolCalls n ℕ :=
  heap.scan py (heap.updateRow py replace) 0

/-! ## What is to be written -/

/-- The record that is to replace one, none for a row that stays. -/
def replacement (py : Py) (heap : HeapFile) (replace : Row → Except PyError (Option Row))
    (r : RecordId × Bytes) : Except PyError (Option Bytes) := do
  let row ← heap.decode py r
  match ← replace row.2 with
  | none => return none
  | some values => return some (← RecordSerializer.serialize py heap.schema values)

/-- Each new record fits its page when its turn comes, up to the first one that raises. -/
def FitsInTurn (written : ℤ → Option Page) :
    List (RecordId × Except PyError (Option Bytes)) → Prop
  | [] => True
  | (_, .error _) :: _ => True
  | (_, .ok none) :: rest => FitsInTurn written rest
  | (rid, .ok (some record)) :: rest =>
    record ≠ [] ∧ ∀ page ∈ written rid.pageId, page.Fits (.update rid.slotIndex record) ∧
      FitsInTurn (Function.update written rid.pageId
        (some (page.updateRecord rid.slotIndex record).1)) rest

/-- A record after the loop. -/
def replaced (writes : RecordId × Bytes → Except PyError (Option Bytes)) (r : RecordId × Bytes) :
    RecordId × Bytes :=
  match writes r with
  | .ok (some record) => (r.1, record)
  | _ => r

/-- Whether a record is replaced. -/
def isReplaced (writes : RecordId × Bytes → Except PyError (Option Bytes)) (r : RecordId × Bytes) :
    Bool :=
  match writes r with
  | .ok (some _) => true
  | _ => false

variable {py : Py} {heap : HeapFile} {replace : Row → Except PyError (Option Row)}
  {b : BufferPool n} {pins : List ℤ} {written written' tracked : ℤ → Option Page} {w : Page}
  {rid : RecordId} {data : Bytes} {count : ℕ}

theorem FitsInTurn.congr {l : List (RecordId × Except PyError (Option Bytes))}
    (h : FitsInTurn written l)
    (hagree : ∀ r ∈ l, written' (r.1.pageId : ℕ) = written r.1.pageId) :
    FitsInTurn written' l := by
  induction l generalizing written written' with
  | nil => trivial
  | cons r rest ih =>
    obtain ⟨rid, write⟩ := r
    rw [List.forall_mem_cons] at hagree
    cases write with
    | error e => trivial
    | ok new =>
      cases new with
      | none => exact ih h hagree.2
      | some record =>
        refine ⟨h.1, fun page hpage => ?_⟩
        rw [hagree.1] at hpage
        obtain ⟨hfits, hrest⟩ := h.2 page hpage
        refine ⟨hfits, ih hrest fun r hr => ?_⟩
        by_cases heq : (r.1.pageId : ℤ) = rid.pageId
        · rw [heq, Function.update_self, Function.update_self]
        · rw [Function.update_of_ne heq, Function.update_of_ne heq]
          exact hagree.2 r hr

/-! ## One record -/

theorem update_eq {s : SlotEntry} {values : Row} {record : Bytes} (h : b.Serves pins written)
    (hroom : pins.toFinset.card < n) (hw : written rid.pageId = some w) (hintact : w.Intact)
    (hlive : w.Live rid.slotIndex s)
    (hserialize : RecordSerializer.serialize py heap.schema values = .ok record)
    (hrec : record ≠ []) (hfits : w.Fits (.update rid.slotIndex record)) :
    ∃ b' page, heap.update py rid values b = (.ok true, b') ∧
      b'.Serves pins (Function.update written rid.pageId (some page)) ∧ page.Intact ∧
        page.liveRecords =
          w.liveRecords.map (fun r => if r.1 = rid.slotIndex then (rid.slotIndex, record) else r) ∧
        page.SameShape (w.updateRecord rid.slotIndex record).1 := by
  obtain ⟨b₁, page, hfetch, hserves, hcontents, hpres, hid⟩ := fetchPage_eq h hroom hw
  have hshape := Page.SameShape.of_contents hcontents
  have hlive' : page.Live rid.slotIndex s := ⟨hshape.slots ▸ hlive.1, hlive.2⟩
  have hpage := hintact.of_contents hpres hcontents
  obtain ⟨hreply, hnew, -⟩ := hpage.update hrec hlive' (hshape.fits hfits)
  obtain ⟨b', hwrite, hserves'⟩ := serves_rewrite hserves
    ((Page.pageId_updateRecord page rid.slotIndex record).trans hid) hnew.documented.preserved
  refine ⟨b', (page.updateRecord rid.slotIndex record).1, ?_, hserves', hnew, ?_,
    hshape.updateRecord rid.slotIndex record⟩
  · rw [update, hserialize, Effect.bind_ok ofPython_ok, Effect.bind_ok hfetch]
    show (do
      modifyPage rid.pageId (page.updateRecord rid.slotIndex record).1
      unpinPage rid.pageId (page.updateRecord rid.slotIndex record).2
      return (page.updateRecord rid.slotIndex record).2 : PoolCalls n Bool) b₁ = _
    rw [hreply]
    exact hwrite Bool true
  · rw [hpage.liveRecords_update hrec hlive' (hshape.fits hfits), liveRecords_of_contents hcontents]

/-- A turn that raises leaves the pool alone. -/
theorem turn_error {e : PyError} (h : replacement py heap replace (rid, data) = .error e) :
    (do
      let values ← ofPython (RecordSerializer.deserialize py heap.schema data)
      heap.updateRow py replace count rid values) b = (.error (.python e), b) := by
  unfold replacement decode at h
  cases hdecode : RecordSerializer.deserialize py heap.schema data with
  | error e' =>
    rw [hdecode] at h
    cases h
    rfl
  | ok row =>
    rw [hdecode] at h
    change (do match ← replace row with
      | none => return none
      | some values => return some (← RecordSerializer.serialize py heap.schema values)) = _ at h
    rw [Effect.bind_ok ofPython_ok, updateRow]
    cases hreplace : replace row with
    | error e' =>
      rw [hreplace] at h
      cases h
      rfl
    | ok new =>
      rw [hreplace] at h
      rw [Effect.bind_ok ofPython_ok]
      cases new with
      | none => cases h
      | some values =>
        change (do return some (← RecordSerializer.serialize py heap.schema values)) = _ at h
        cases hserialize : RecordSerializer.serialize py heap.schema values with
        | ok record =>
          rw [hserialize] at h
          cases h
        | error e' =>
          rw [hserialize] at h
          cases h
          refine Effect.bind_error ?_
          rw [update, hserialize]
          rfl

/-- A row that stays. -/
theorem turn_none (h : replacement py heap replace (rid, data) = .ok none) :
    (do
      let values ← ofPython (RecordSerializer.deserialize py heap.schema data)
      heap.updateRow py replace count rid values) b = (.ok count, b) := by
  unfold replacement decode at h
  obtain ⟨row, hrow, h⟩ := bind_eq_ok h
  obtain ⟨row', hdecode, hrow⟩ := bind_eq_ok hrow
  cases hrow
  obtain ⟨new, hreplace, h⟩ := bind_eq_ok h
  cases new with
  | none =>
    rw [hdecode, Effect.bind_ok ofPython_ok, updateRow, hreplace, Effect.bind_ok ofPython_ok]
    rfl
  | some values =>
    obtain ⟨record, -, h⟩ := bind_eq_ok h
    cases h

/-- A row that is replaced. -/
theorem turn_some {record : Bytes} {s : SlotEntry}
    (hwrites : replacement py heap replace (rid, data) = .ok (some record))
    (h : b.Serves pins written) (hroom : pins.toFinset.card < n)
    (hw : written rid.pageId = some w) (hintact : w.Intact) (hlive : w.Live rid.slotIndex s)
    (hrec : record ≠ []) (hfits : w.Fits (.update rid.slotIndex record)) :
    ∃ b' page, (do
        let values ← ofPython (RecordSerializer.deserialize py heap.schema data)
        heap.updateRow py replace count rid values) b = (.ok (count + 1), b') ∧
      b'.Serves pins (Function.update written rid.pageId (some page)) ∧ page.Intact ∧
        page.liveRecords =
          w.liveRecords.map (fun r => if r.1 = rid.slotIndex then (rid.slotIndex, record) else r) ∧
        page.SameShape (w.updateRecord rid.slotIndex record).1 := by
  unfold replacement decode at hwrites
  obtain ⟨row, hrow, hwrites⟩ := bind_eq_ok hwrites
  obtain ⟨row', hdecode, hrow⟩ := bind_eq_ok hrow
  cases hrow
  obtain ⟨new, hreplace, hwrites⟩ := bind_eq_ok hwrites
  cases new with
  | none => cases hwrites
  | some values =>
    obtain ⟨record', hserialize, hwrites⟩ := bind_eq_ok hwrites
    obtain rfl : record' = record := Option.some.inj (Except.ok.inj hwrites)
    obtain ⟨b', page, hrun, hserves, hpage⟩ :=
      update_eq h hroom hw hintact hlive hserialize hrec hfits
    refine ⟨b', page, ?_, hserves, hpage⟩
    rw [hdecode, Effect.bind_ok ofPython_ok, updateRow, hreplace, Effect.bind_ok ofPython_ok]
    exact Effect.bind_ok hrun

/-! ## The loop -/

/-- The pages that are tracked have the shapes of those in the pool. -/
def Tracks (tracked written : ℤ → Option Page) : Prop :=
  ∀ pageId, ∀ q ∈ written pageId, ∃ p ∈ tracked pageId, q.SameShape p

theorem Tracks.refl (written : ℤ → Option Page) : Tracks written written :=
  fun _ q hq => ⟨q, hq, .refl q⟩

theorem Tracks.update (h : Tracks tracked written) (id : ℤ) {q p : Page} (hshape : q.SameShape p) :
    Tracks (Function.update tracked id (some p)) (Function.update written id (some q)) := by
  intro id' r hr
  by_cases heq : id' = id
  · subst heq
    rw [Function.update_self] at hr
    obtain rfl := Option.some.inj hr
    exact ⟨p, by rw [Function.update_self]; rfl, hshape⟩
  · rw [Function.update_of_ne heq] at hr ⊢
    exact h id' r hr

/-- A record of a page, with its record id. -/
def onPage (pageId : ℕ) (r : ℕ × Bytes) : RecordId × Bytes := (⟨pageId, r.1⟩, r.2)

theorem recordsOn_eq {pageId : ℕ} (hw : written pageId = some w) :
    recordsOn written pageId = w.liveRecords.map (onPage pageId) := by
  rw [recordsOn, hw]
  rfl

/-- Only the one record of the slot is replaced. -/
theorem map_replace {done rest : List (ℕ × Bytes)} {i : ℕ} {record : Bytes}
    (hnodup : ((done ++ (i, data) :: rest).map Prod.fst).Nodup) :
    (done ++ (i, data) :: rest).map (fun r => if r.1 = i then (i, record) else r) =
      (done ++ [(i, record)]) ++ rest := by
  rw [List.map_append, List.map_cons, List.nodup_append, List.nodup_cons] at hnodup
  obtain ⟨-, ⟨hrest, -⟩, hdone⟩ := hnodup
  have hkeep : ∀ l : List (ℕ × Bytes), (∀ r ∈ l, r.1 ≠ i) →
      l.map (fun r => if r.1 = i then (i, record) else r) = l := by
    intro l hl
    refine (List.map_congr_left fun r hr => if_neg (hl r hr)).trans (List.map_id' l)
  rw [List.map_append, List.map_cons, if_pos rfl, hkeep done, hkeep rest, List.append_assoc]
  · rfl
  · intro r hr heq
    exact hrest (List.mem_map.mpr ⟨r, hr, heq⟩)
  · intro r hr heq
    exact hdone r.1 (List.mem_map_of_mem hr) i List.mem_cons_self heq

/-- The loop over the records of a page that remain. -/
def pageLoop (py : Py) (heap : HeapFile) (replace : Row → Except PyError (Option Row)) (pageId : ℕ)
    (l : List (ℕ × Bytes)) (count : ℕ) : PoolCalls n ℕ :=
  l.foldlM (fun count record => do
    let values ← ofPython (RecordSerializer.deserialize py heap.schema record.2)
    heap.updateRow py replace count ⟨pageId, record.1⟩ values) count

/-- The pool after the loop over the records of a page, which are now `records`, with what is still
to be written on later pages. -/
structure PageDone (pins : List ℤ) (pageId : ℕ) (records : List (RecordId × Bytes))
    (later : List (RecordId × Except PyError (Option Bytes))) (written : ℤ → Option Page)
    (b' : BufferPool n) (written' tracked' : ℤ → Option Page) : Prop where
  serves : b'.Serves pins written'
  page : ∃ w', written' pageId = some w' ∧ w'.Intact ∧ w'.liveRecords.map (onPage pageId) = records
  others : ∀ id ≠ (pageId : ℤ), written' id = written id
  tracks : Tracks tracked' written'
  fits : FitsInTurn tracked' later

/-- The loop over the records `l` of a page, of which those in `done` have had their turn. -/
theorem pageLoop_eq {pageId : ℕ} {later : List (RecordId × Except PyError (Option Bytes))}
    (l done : List (ℕ × Bytes)) (count : ℕ) (hroom : pins.toFinset.card < n)
    (h : b.Serves pins written) (hw : written pageId = some w) (hintact : w.Intact)
    (htracks : Tracks tracked written) (hlive : w.liveRecords = done ++ l)
    (hfits : FitsInTurn tracked
      ((l.map (onPage pageId)).map (fun r => (r.1, replacement py heap replace r)) ++ later)) :
    let writes := replacement py heap replace
    let records := l.map (onPage pageId)
    ((∃ r ∈ records, (writes r).isOk = false) →
      ∃ e b', pageLoop py heap replace pageId l count b = (.error e, b')) ∧
    ((∀ r ∈ records, (writes r).isOk = true) → ∃ b' written' tracked',
      pageLoop py heap replace pageId l count b =
        (.ok (count + (records.filter (isReplaced writes)).length), b') ∧
      PageDone pins pageId (done.map (onPage pageId) ++ records.map (replaced writes)) later written
        b' written' tracked') := by
  intro writes records
  induction l generalizing done count b written tracked w with
  | nil =>
    refine ⟨by simp [records], fun _ => ⟨b, written, tracked, rfl, h, ⟨w, hw, hintact, ?_⟩,
      fun _ _ => rfl, htracks, hfits⟩⟩
    rw [hlive]
    simp [records]
  | cons r l ih =>
    obtain ⟨i, data⟩ := r
    rw [List.map_cons, List.map_cons, List.cons_append] at hfits
    simp only [records, List.map_cons, List.exists_mem_cons_iff, List.forall_mem_cons]
    cases hwrites : writes (onPage pageId (i, data)) with
    | error e =>
      refine ⟨fun _ => ⟨_, b, Effect.foldlM_cons_error (turn_error hwrites)⟩, fun hok => ?_⟩
      cases hok.1
    | ok new =>
      simp only [writes] at hwrites
      rw [hwrites] at hfits
      cases new with
      | none =>
        rw [FitsInTurn] at hfits
        obtain ⟨hraises, hruns⟩ := ih (done ++ [(i, data)]) count h hw hintact htracks
          (by rw [hlive, List.append_assoc]; rfl) hfits
        have hturn : pageLoop py heap replace pageId ((i, data) :: l) count b =
            pageLoop py heap replace pageId l count b :=
          Effect.foldlM_cons_ok (turn_none hwrites)
        rw [hturn]
        refine ⟨fun hsome => hraises (hsome.resolve_left (by simp [Except.isOk, Except.toBool])),
          fun hok => ?_⟩
        obtain ⟨b', written', tracked', hrun, hdone⟩ := hruns hok.2
        have hstays : replaced writes (onPage pageId (i, data)) = onPage pageId (i, data) := by
          simp only [replaced, writes, hwrites]
        refine ⟨b', written', tracked', ?_, ?_⟩
        · rw [hrun, List.filter_cons_of_neg]
          simp only [isReplaced, writes, hwrites]
          simp
        · rw [hstays]
          simpa using hdone
      | some record =>
        obtain ⟨hrec, htake⟩ := hfits
        obtain ⟨p, hp, hshape⟩ := htracks pageId w hw
        obtain ⟨hfit, hrest⟩ := htake p hp
        have hmem : (i, data) ∈ w.liveRecords := by
          rw [hlive]
          exact List.mem_append_right _ List.mem_cons_self
        obtain ⟨s, hs, -⟩ := Page.mem_liveRecords.mp hmem
        obtain ⟨b₁, page, hrun₁, hserves, hpage, hlist, hnew⟩ :=
          turn_some hwrites h hroom hw hintact hs hrec (hshape.fits hfit)
        rw [hlive, map_replace (hlive ▸ w.nodup_liveRecords)] at hlist
        have htracks' := htracks.update pageId (hnew.trans (hshape.updateRecord i record))
        obtain ⟨hraises, hruns⟩ := ih (done ++ [(i, record)]) (count + 1) hserves
          (Function.update_self ..) hpage htracks' hlist hrest
        have hturn : pageLoop py heap replace pageId ((i, data) :: l) count b =
            pageLoop py heap replace pageId l (count + 1) b₁ :=
          Effect.foldlM_cons_ok hrun₁
        rw [hturn]
        refine ⟨fun hsome => hraises (hsome.resolve_left (by simp [Except.isOk, Except.toBool])),
          fun hok => ?_⟩
        obtain ⟨b', written', tracked', hrun, hdone⟩ := hruns hok.2
        have hnow : replaced writes (onPage pageId (i, data)) = onPage pageId (i, record) := by
          simp only [replaced, writes, hwrites]
          rfl
        refine ⟨b', written', tracked', ?_, ?_⟩
        · rw [hrun, List.filter_cons_of_pos]
          · rw [List.length_cons, Nat.add_assoc, Nat.add_comm 1]
          · simp only [isReplaced, writes, hwrites]
        · rw [hnow]
          exact {
            serves := hdone.serves
            page := by simpa using hdone.page
            others := fun id hid => (hdone.others id hid).trans (Function.update_of_ne hid _ _)
            tracks := hdone.tracks
            fits := hdone.fits }

/-- The scan over pages each of which exists once and is intact. -/
theorem pagesLoop_eq (pageIds : List ℕ) (count : ℕ) (hroom : pins.toFinset.card < n)
    (hnodup : pageIds.Nodup) (h : b.Serves pins written)
    (hpages : ∀ pageId ∈ pageIds, ∃ page, written pageId = some page ∧ page.Intact)
    (htracks : Tracks tracked written)
    (hfits : FitsInTurn tracked ((pageIds.flatMap (recordsOn written)).map
      fun r => (r.1, replacement py heap replace r))) :
    let writes := replacement py heap replace
    let records := pageIds.flatMap (recordsOn written)
    let loop : PoolCalls n ℕ := pageIds.foldlM (fun acc pageId => do
      let page ← fetchPage pageId
      unpinPage pageId false
      pageLoop py heap replace pageId page.liveRecords acc) count
    ((∃ r ∈ records, (writes r).isOk = false) → ∃ e b', loop b = (.error e, b')) ∧
    ((∀ r ∈ records, (writes r).isOk = true) → ∃ b' written',
      loop b = (.ok (count + (records.filter (isReplaced writes)).length), b') ∧
      b'.Serves pins written' ∧
      (∀ pageId ∈ pageIds, ∃ page, written' (pageId : ℕ) = some page ∧ page.Intact) ∧
      pageIds.flatMap (recordsOn written') = records.map (replaced writes) ∧
      ∀ q : ℕ, q ∉ pageIds → written' q = written q) := by
  intro writes records loop
  induction pageIds generalizing count b written tracked with
  | nil => exact ⟨by simp [records], fun _ => ⟨b, written, rfl, h, by simp, rfl, fun _ _ => rfl⟩⟩
  | cons pageId rest ih =>
    rw [List.nodup_cons] at hnodup
    rw [List.forall_mem_cons] at hpages
    obtain ⟨⟨w, hw, hintact⟩, hpages⟩ := hpages
    obtain ⟨b₁, b₂, page, hfetch, hunpin, hserves, hcontents⟩ := visit h hroom hw
    have hlive := liveRecords_of_contents hcontents
    rw [List.flatMap_cons, List.map_append, recordsOn_eq hw] at hfits
    obtain ⟨hraises, hruns⟩ := pageLoop_eq w.liveRecords [] count hroom hserves hw hintact htracks
      rfl hfits
    have hturn : (do
        let page ← fetchPage pageId
        unpinPage pageId false
        pageLoop py heap replace pageId page.liveRecords count : PoolCalls n ℕ) b =
        pageLoop py heap replace pageId w.liveRecords count b₂ := by
      rw [Effect.bind_ok hfetch, Effect.bind_ok hunpin, hlive]
    have hrecords : records = w.liveRecords.map (onPage pageId) ++
        rest.flatMap (recordsOn written) := by
      simp only [records, List.flatMap_cons, recordsOn_eq hw]
    rw [hrecords]
    by_cases hfirst : ∀ r ∈ w.liveRecords.map (onPage pageId), (writes r).isOk = true
    · obtain ⟨b₃, written₁, tracked₁, hrun, hdone⟩ := hruns hfirst
      have hsame : ∀ id ∈ rest, written₁ (id : ℕ) = written id := by
        intro id hid
        refine hdone.others id ?_
        rintro heq
        obtain rfl : id = pageId := by exact_mod_cast heq
        exact hnodup.1 hid
      have hlater : rest.flatMap (recordsOn written₁) = rest.flatMap (recordsOn written) :=
        List.flatMap_congr fun id hid => by rw [recordsOn, recordsOn, hsame id hid]
      have hintact₁ : ∀ id ∈ rest, ∃ page, written₁ (id : ℕ) = some page ∧ page.Intact := by
        intro id hid
        rw [hsame id hid]
        exact hpages id hid
      obtain ⟨hraises', hruns'⟩ := ih (count + ((w.liveRecords.map (onPage pageId)).filter
        (isReplaced writes)).length) hnodup.2 hdone.serves hintact₁ hdone.tracks
        (hlater ▸ hdone.fits)
      rw [hlater] at hraises' hruns'
      have hloop : loop b = _ := Effect.foldlM_cons_ok (hturn.trans hrun)
      rw [hloop]
      constructor
      · rintro ⟨r, hr, hraise⟩
        rcases List.mem_append.mp hr with hr | hr
        · rw [hfirst r hr] at hraise
          cases hraise
        · exact hraises' ⟨r, hr, hraise⟩
      · intro hok
        obtain ⟨b', written', hrun', hserves', hintact', hafter, hothers⟩ :=
          hruns' fun r hr => hok r (List.mem_append_right _ hr)
        obtain ⟨w', hw', hintactw, hlist⟩ := hdone.page
        have hpage' : written' pageId = some w' := (hothers pageId hnodup.1).trans hw'
        refine ⟨b', written', ?_, hserves', ?_, ?_, ?_⟩
        · rw [hrun', List.filter_append, List.length_append, Nat.add_assoc]
        · exact List.forall_mem_cons.mpr ⟨⟨w', hpage', hintactw⟩, hintact'⟩
        · rw [List.flatMap_cons, recordsOn_eq hpage', hlist, hafter, List.map_append]
          rfl
        · intro q hq
          rw [List.mem_cons, not_or] at hq
          rw [hothers q hq.2, hdone.others q (by exact_mod_cast hq.1)]
    · constructor
      · intro _
        push Not at hfirst
        obtain ⟨r, hr, hraise⟩ := hfirst
        obtain ⟨e, b', hrun⟩ := hraises ⟨r, hr, by simpa using hraise⟩
        exact ⟨e, b', Effect.foldlM_cons_error (hturn.trans hrun)⟩
      · intro hok
        exact absurd (fun r hr => hok r (List.mem_append_left _ hr)) hfirst

/-- A table of intact pages is rewritten, or the loop raises. -/
theorem updateWhere_eq (hroom : pins.toFinset.card < n) (h : b.Serves pins written)
    (hintact : heap.Intact written)
    (hfits : FitsInTurn written ((heap.records written).map
      fun r => (r.1, replacement py heap replace r))) :
    let writes := replacement py heap replace
    let records := heap.records written
    ((∃ r ∈ records, (writes r).isOk = false) →
      ∃ e b', heap.updateWhere py replace b = (.error e, b')) ∧
    ((∀ r ∈ records, (writes r).isOk = true) → ∃ b' written',
      heap.updateWhere py replace b = (.ok (records.filter (isReplaced writes)).length, b') ∧
      b'.Serves pins written' ∧ heap.Intact written' ∧
      heap.records written' = records.map (replaced writes) ∧
      ∀ q : ℕ, q ∉ heap.pageIds → written' q = written q) := by
  intro writes records
  obtain ⟨hraises, hruns⟩ := pagesLoop_eq heap.pageIds 0 hroom hintact.nodup h hintact.pages
    (.refl written) hfits
  refine ⟨hraises, fun hok => ?_⟩
  obtain ⟨b', written', hrun, hserves, hpages, hrecords, hothers⟩ := hruns hok
  rw [Nat.zero_add] at hrun
  exact ⟨b', written', hrun, hserves, ⟨hintact.nodup, hpages⟩, hrecords, hothers⟩

end HeapFile

end PySQL.Storage
