import PySQL.Lib.Dict
import PySQL.Storage.Disk

/-!
# The buffer pool

Every call returns the pool as it is left, also when the call raises: a half-done eviction stays
half done.
-/

namespace PySQL.Storage

open Lib

/-- Metadata of a frame; a negative page number means that it is empty. -/
structure FrameHeader where
  pageId : ℤ := -1
  pinCount : ℕ := 0
  isDirty : Bool := false
  refBit : Bool := false
  deriving DecidableEq, Repr

structure BufferPool (n : ℕ) where
  disk : DiskManager
  frames : Fin n → Option Page
  headers : Fin n → FrameHeader
  pageTable : Dict ℤ (Fin n)
  clockHand : Fin n
  hits : ℕ
  misses : ℕ
  evictions : ℕ

/-- The pool after a call, with what the call returned or raised. -/
abbrev Outcome (n : ℕ) (α : Type) := BufferPool n × Except StorageError α

instance neZero_one : NeZero 1 := ⟨one_ne_zero⟩

namespace BufferPool

set_option linter.unusedSectionVars false

variable {n : ℕ} [NeZero n]

def new (disk : DiskManager) : BufferPool n where
  disk
  frames _ := none
  headers _ := {}
  pageTable := Dict.empty
  clockHand := 0
  hits := 0
  misses := 0
  evictions := 0

def setHeader (b : BufferPool n) (f : Fin n) (h : FrameHeader) : BufferPool n :=
  { b with headers := Function.update b.headers f h }

def setFrame (b : BufferPool n) (f : Fin n) (page : Option Page) : BufferPool n :=
  { b with frames := Function.update b.frames f page }

theorem headers_setHeader (b : BufferPool n) (f g : Fin n) (h : FrameHeader) :
    (b.setHeader f h).headers g = if g = f then h else b.headers g := Function.update_apply ..

theorem frames_setFrame (b : BufferPool n) (f g : Fin n) (page : Option Page) :
    (b.setFrame f page).frames g = if g = f then page else b.frames g := Function.update_apply ..

/-! ## Clock-sweep eviction -/

def emptyFrame? (b : BufferPool n) : Option (Fin n) :=
  (List.finRange n).find? fun f => (b.headers f).pageId < 0

def advance (b : BufferPool n) : BufferPool n := { b with clockHand := b.clockHand + 1 }

def sweep (b : BufferPool n) : ℕ → Outcome n (Fin n)
  | 0 => (b, .error .poolExhausted)
  | turns + 1 =>
    let header := b.headers b.clockHand
    if header.pinCount = 0 then
      if header.refBit then
        -- a second chance
        sweep (b.setHeader b.clockHand { header with refBit := false }).advance turns
      else (b.advance, .ok b.clockHand)
    else sweep b.advance turns

def findVictimFrame (b : BufferPool n) : Outcome n (Fin n) :=
  match b.emptyFrame? with
  | some f => (b, .ok f)
  | none => b.sweep (2 * n)

/-! ## The calls -/

/-- `self._disk.write_page(self._frames[f])` -/
def writeFrame (b : BufferPool n) (f : Fin n) : Outcome n Unit :=
  match b.frames f with
  | none => (b, .error .noPage)
  | some page =>
    let w := b.disk.writePage page
    ({ b with disk := w.1.1, frames := Function.update b.frames f (some w.1.2) }, w.2)

/-- Make room in a frame: write its page back if it is dirty and take it out of the page table.
The header and the page stay in the frame until the caller installs another page. -/
def evict (b : BufferPool n) (f : Fin n) : Outcome n Unit :=
  let victim := b.headers f
  if victim.pageId < 0 then (b, .ok ())
  else
    match if victim.isDirty then b.writeFrame f else (b, .ok ()) with
    | (b, .error e) => (b, .error e)
    | (b, .ok ()) =>
      match b.pageTable.get? victim.pageId with
      | none => (b, .error (.keyError victim.pageId))
      | some _ =>
        ({ b with
            pageTable := b.pageTable.erase victim.pageId
            evictions := b.evictions + 1 }, .ok ())

/-- Find a frame and make room in it. -/
def claimFrame (b : BufferPool n) : Outcome n (Fin n) :=
  match b.findVictimFrame with
  | (b, .error e) => (b, .error e)
  | (b, .ok f) =>
    match b.evict f with
    | (b, .error e) => (b, .error e)
    | (b, .ok ()) => (b, .ok f)

/-- Put a page in a frame, pinned once. -/
def install (b : BufferPool n) (f : Fin n) (pageId : ℤ) (page : Page) (isDirty : Bool) :
    BufferPool n :=
  { b with
    frames := Function.update b.frames f (some page)
    headers := Function.update b.headers f { pageId, pinCount := 1, isDirty, refBit := true }
    pageTable := b.pageTable.set pageId f }

/-- Fetch a page and pin it.  The page is what the frame holds. -/
def fetchPage (b : BufferPool n) (pageId : ℤ) : Outcome n (Option Page) :=
  match b.pageTable.get? pageId with
  | some f =>
    let header := b.headers f
    ({ b.setHeader f { header with pinCount := header.pinCount + 1, refBit := true } with
        hits := b.hits + 1 }, .ok (b.frames f))
  | none =>
    match claimFrame { b with misses := b.misses + 1 } with
    | (b, .error e) => (b, .error e)
    | (b, .ok f) =>
      match b.disk.readPage pageId with
      | .error e => (b, .error e)
      | .ok page => (b.install f pageId page false, .ok (some page))

/-- Allocate a page on disk and bring it in, pinned and dirty. -/
def newPage (b : BufferPool n) (pageType : PageType) : Outcome n Page :=
  match b.disk.allocatePage pageType with
  | (disk, .error e) => ({ b with disk }, .error e)
  | (disk, .ok page) =>
    match claimFrame { b with disk } with
    | (b, .error e) => (b, .error e)
    | (b, .ok f) => (b.install f page.header.pageId page true, .ok page)

def unpinPage (b : BufferPool n) (pageId : ℤ) (isDirty : Bool) : BufferPool n × Bool :=
  match b.pageTable.get? pageId with
  | none => (b, false)
  | some f =>
    let header := b.headers f
    if header.pinCount = 0 then (b, false)
    else
      (b.setHeader f { header with
        pinCount := header.pinCount - 1
        isDirty := header.isDirty || isDirty }, true)

/-- Write a frame's page and mark it clean. -/
def cleanFrame (b : BufferPool n) (f : Fin n) : Outcome n Unit :=
  match b.writeFrame f with
  | (b, .error e) => (b, .error e)
  | (b, .ok ()) => (b.setHeader f { b.headers f with isDirty := false }, .ok ())

def flushPage (b : BufferPool n) (pageId : ℤ) : Outcome n Bool :=
  match b.pageTable.get? pageId with
  | none => (b, .ok false)
  | some f =>
    if (b.frames f).isSome ∧ (b.headers f).isDirty then
      match b.cleanFrame f with
      | (b, .error e) => (b, .error e)
      | (b, .ok ()) => (b, .ok true)
    else (b, .ok true)

/-- The loop of `flush_all` over the frames that remain; an exception ends it. -/
def flushFrames (b : BufferPool n) : List (Fin n) → Outcome n Unit
  | [] => (b, .ok ())
  | f :: fs =>
    if (b.headers f).pageId ≥ 0 ∧ (b.headers f).isDirty ∧ (b.frames f).isSome then
      match b.cleanFrame f with
      | (b, .error e) => (b, .error e)
      | (b, .ok ()) => flushFrames b fs
    else flushFrames b fs

def flushAll (b : BufferPool n) : Outcome n Unit := b.flushFrames (List.finRange n)

def deletePage (b : BufferPool n) (pageId : ℤ) : BufferPool n × Bool :=
  match b.pageTable.get? pageId with
  | none => (b, true)
  | some f =>
    if (b.headers f).pinCount > 0 then (b, false)
    else
      ({ (b.setFrame f none).setHeader f {} with pageTable := b.pageTable.erase pageId }, true)

end BufferPool

/-! ## A pool and its callers -/

inductive PoolCall where
  | fetchPage (pageId : ℤ)
  | newPage (pageType : PageType)
  | unpinPage (pageId : ℤ) (isDirty : Bool)
  | flushPage (pageId : ℤ)
  | flushAll
  | deletePage (pageId : ℤ)
  deriving DecidableEq, Repr

inductive PoolReply where
  | page (page : Option Page)
  | bool (b : Bool)
  | unit
  | raised (e : StorageError)
  deriving DecidableEq, Repr

/-- The reply of a call that may raise. -/
def PoolReply.ofExcept {α : Type} (reply : α → PoolReply) : Except StorageError α → PoolReply
  | .ok a => reply a
  | .error e => .raised e

namespace BufferPool

variable {n : ℕ} [NeZero n]

def call (b : BufferPool n) : PoolCall → BufferPool n × PoolReply
  | .fetchPage pageId => let r := b.fetchPage pageId; (r.1, .ofExcept .page r.2)
  | .newPage pageType =>
    let r := b.newPage pageType; (r.1, .ofExcept (fun page => .page (some page)) r.2)
  | .unpinPage pageId isDirty => let r := b.unpinPage pageId isDirty; (r.1, .bool r.2)
  | .flushPage pageId => let r := b.flushPage pageId; (r.1, .ofExcept .bool r.2)
  | .flushAll => let r := b.flushAll; (r.1, .ofExcept (fun _ => .unit) r.2)
  | .deletePage pageId => let r := b.deletePage pageId; (r.1, .bool r.2)

/-- A user of page `pageId` changes it in place: it becomes `page`.  A page that is no longer in
the pool is not the pool's any more. -/
def modify (b : BufferPool n) (pageId : ℤ) (page : Page) : BufferPool n :=
  match b.pageTable.get? pageId with
  | none => b
  | some f => b.setFrame f (some page)

/-! ## What finding a victim and writing a frame change -/

/-- The same pool but for the clock hand, the reference bits and the counters. -/
structure Swept (b b' : BufferPool n) : Prop where
  disk : b'.disk = b.disk
  frames : b'.frames = b.frames
  pageTable : b'.pageTable = b.pageTable
  pageId : ∀ f, (b'.headers f).pageId = (b.headers f).pageId
  pinCount : ∀ f, (b'.headers f).pinCount = (b.headers f).pinCount
  isDirty : ∀ f, (b'.headers f).isDirty = (b.headers f).isDirty

variable {b b' : BufferPool n} {f : Fin n}

theorem Swept.refl (b : BufferPool n) : Swept b b :=
  ⟨rfl, rfl, rfl, fun _ => rfl, fun _ => rfl, fun _ => rfl⟩

theorem Swept.trans {b₁ b₂ b₃ : BufferPool n} (h : Swept b₁ b₂) (h' : Swept b₂ b₃) :
    Swept b₁ b₃ where
  disk := h'.disk.trans h.disk
  frames := h'.frames.trans h.frames
  pageTable := h'.pageTable.trans h.pageTable
  pageId f := (h'.pageId f).trans (h.pageId f)
  pinCount f := (h'.pinCount f).trans (h.pinCount f)
  isDirty f := (h'.isDirty f).trans (h.isDirty f)

theorem swept_clearRef (b : BufferPool n) (f : Fin n) :
    Swept b (b.setHeader f { b.headers f with refBit := false }) := by
  refine ⟨rfl, rfl, rfl, fun g => ?_, fun g => ?_, fun g => ?_⟩
  all_goals
    rw [headers_setHeader]
    split
    · next heq => rw [heq]
    · rfl

theorem swept_advance (b : BufferPool n) : Swept b b.advance :=
  ⟨rfl, rfl, rfl, fun _ => rfl, fun _ => rfl, fun _ => rfl⟩

/-- The sweep settles on a frame that nobody has pinned. -/
theorem sweep_spec (b : BufferPool n) (turns : ℕ) : Swept b (b.sweep turns).1 ∧
    ∀ f, (b.sweep turns).2 = .ok f → (b.headers f).pinCount = 0 := by
  induction turns generalizing b with
  | zero => exact ⟨.refl b, fun _ h => nomatch h⟩
  | succ turns ih =>
    unfold sweep
    simp only
    split
    · next hfree =>
      split
      · -- the reference bit is cleared and the hand moves on
        have hturn := (swept_clearRef b b.clockHand).trans (swept_advance _)
        obtain ⟨hswept, hvictim⟩ := ih _
        refine ⟨hturn.trans hswept, fun f hf => ?_⟩
        rw [← hturn.pinCount]
        exact hvictim f hf
      · exact ⟨swept_advance b, fun f hf => by cases hf; exact hfree⟩
    · obtain ⟨hswept, hvictim⟩ := ih b.advance
      exact ⟨(swept_advance b).trans hswept, hvictim⟩

theorem emptyFrame?_eq_none : b.emptyFrame? = none ↔ ∀ f, 0 ≤ (b.headers f).pageId := by
  simp [emptyFrame?]

/-- The victim is an empty frame as long as there is one, and then one that is not pinned. -/
theorem findVictimFrame_spec (b : BufferPool n) : Swept b b.findVictimFrame.1 ∧
    ∀ f, b.findVictimFrame.2 = .ok f →
      (b.headers f).pageId < 0 ∨ (∀ g, 0 ≤ (b.headers g).pageId) ∧ (b.headers f).pinCount = 0 := by
  unfold findVictimFrame
  split
  · next f hf =>
    refine ⟨.refl b, fun g hg => ?_⟩
    cases hg
    exact .inl (by simpa using List.find?_some hf)
  · next hnone =>
    obtain ⟨hswept, hvictim⟩ := b.sweep_spec (2 * n)
    exact ⟨hswept, fun f hf => .inr ⟨emptyFrame?_eq_none.mp hnone, hvictim f hf⟩⟩

theorem sweep_misses (b : BufferPool n) (m turns : ℕ) : ({ b with misses := m }).sweep turns =
    ({ (b.sweep turns).1 with misses := m }, (b.sweep turns).2) := by
  induction turns generalizing b with
  | zero => rfl
  | succ turns ih =>
    unfold sweep
    simp only
    split
    · split
      · exact ih (b.setHeader b.clockHand { b.headers b.clockHand with refBit := false }).advance
      · rfl
    · exact ih b.advance

/-- The victim does not depend on the counters. -/
theorem findVictimFrame_misses (b : BufferPool n) (m : ℕ) :
    ({ b with misses := m }).findVictimFrame.2 = b.findVictimFrame.2 := by
  unfold findVictimFrame
  have hempty : ({ b with misses := m } : BufferPool n).emptyFrame? = b.emptyFrame? := rfl
  rw [hempty, sweep_misses]
  split <;> rfl

theorem writeFrame_eq {page : Page} (h : b.frames f = some page) : b.writeFrame f =
    ({ b with
        disk := (b.disk.writePage page).1.1
        frames := Function.update b.frames f (some (b.disk.writePage page).1.2) },
      (b.disk.writePage page).2) := by
  rw [writeFrame, h]

theorem frames_writeFrame {page : Page} (h : b.frames f = some page) (g : Fin n) :
    (b.writeFrame f).1.frames g =
      if g = f then some (b.disk.writePage page).1.2 else b.frames g := by
  rw [writeFrame_eq h]
  exact Function.update_apply ..

theorem headers_install (b : BufferPool n) (f g : Fin n) (pageId : ℤ) (page : Page) (d : Bool) :
    (b.install f pageId page d).headers g =
      if g = f then { pageId, pinCount := 1, isDirty := d, refBit := true } else b.headers g :=
  Function.update_apply ..

theorem frames_install (b : BufferPool n) (f g : Fin n) (pageId : ℤ) (page : Page) (d : Bool) :
    (b.install f pageId page d).frames g = if g = f then some page else b.frames g :=
  Function.update_apply ..

theorem get?_install (b : BufferPool n) (f : Fin n) (pageId q : ℤ) (page : Page) (d : Bool) :
    (b.install f pageId page d).pageTable.get? q =
      if pageId = q then some f else b.pageTable.get? q := Dict.get?_set ..

end BufferPool

end PySQL.Storage
