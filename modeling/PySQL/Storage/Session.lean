import PySQL.Lib.Machine
import PySQL.Storage.BufferPool

/-!
# A buffer pool and its callers

Callers pin pages, change them in place and report the change when they unpin.  The record of what
was last written is the plain page store that the pool stands for.
-/

namespace PySQL.Storage

open Lib

/-! ## Callers -/

/-- What the callers did so far: the pins they hold, the changes they have not reported yet, and
each existing page as it was last written. -/
structure Callers (κ : Type) where
  pins : List (κ × ℤ)
  unreported : List (κ × ℤ)
  written : ℤ → Option Page

structure Session (n : ℕ) (κ : Type) where
  pool : BufferPool n
  callers : Callers κ

inductive Action (κ : Type) where
  | fetchPage (caller : κ) (pageId : ℤ)
  | newPage (caller : κ) (pageType : PageType)
  | unpinPage (caller : κ) (pageId : ℤ) (isDirty : Bool)
  | flushPage (pageId : ℤ)
  | flushAll
  | modify (caller : κ) (pageId : ℤ) (page : Page)

set_option linter.unusedSectionVars false

variable {κ : Type} [DecidableEq κ] {n : ℕ} [NeZero n]

namespace Callers

def pin (g : Callers κ) (caller : κ) (pageId : ℤ) : Callers κ :=
  { g with pins := (caller, pageId) :: g.pins }

def write (g : Callers κ) (pageId : ℤ) (page : Page) : Callers κ :=
  { g with written := Function.update g.written pageId (some page) }

/-- One pin less; a dirty unpin reports the caller's changes. -/
def unpin (g : Callers κ) (caller : κ) (pageId : ℤ) (isDirty : Bool) : Callers κ :=
  { g with
    pins := g.pins.erase (caller, pageId)
    unreported :=
      if isDirty then g.unreported.filter (· ≠ (caller, pageId)) else g.unreported }

/-- A page allocated by `new_page` exists from then on, even if no frame is found for it. -/
def allocate (g : Callers κ) (numPages : ℕ) (pageType : PageType) : Callers κ :=
  if numPages < 2 ^ 32 then g.write numPages (Page.new numPages pageType) else g

end Callers

/-- Callers fetch pages that exist, unpin what they pinned, change a page only while they hold a
pin on it, and report every change before their last pin on the page is gone. -/
def Session.enabled (s : Session n κ) : Action κ → Prop
  | .fetchPage _ pageId => (s.callers.written pageId).isSome
  | .newPage _ _ | .flushPage _ | .flushAll => True
  | .unpinPage caller pageId isDirty => (caller, pageId) ∈ s.callers.pins ∧
      (isDirty = false → (caller, pageId) ∈ s.callers.unreported →
        (caller, pageId) ∈ s.callers.pins.erase (caller, pageId))
  | .modify caller pageId page => (caller, pageId) ∈ s.callers.pins ∧
      (page.header.pageId : ℤ) = pageId ∧ page.Preserved

def Session.step (s : Session n κ) : Action κ → Session n κ × PoolReply
  | .fetchPage caller pageId =>
    let r := s.pool.fetchPage pageId
    let callers := match r.2 with
      | .ok _ => s.callers.pin caller pageId
      | .error _ => s.callers
    (⟨r.1, callers⟩, .ofExcept .page r.2)
  | .newPage caller pageType =>
    let r := s.pool.newPage pageType
    let allocated := s.callers.allocate s.pool.disk.numPages pageType
    let callers := match r.2 with
      | .ok page => allocated.pin caller page.header.pageId
      | .error _ => allocated
    (⟨r.1, callers⟩, .ofExcept (fun page => .page (some page)) r.2)
  | .unpinPage caller pageId isDirty =>
    let r := s.pool.unpinPage pageId isDirty
    (⟨r.1, s.callers.unpin caller pageId isDirty⟩, .bool r.2)
  | .flushPage pageId =>
    let r := s.pool.flushPage pageId
    (⟨r.1, s.callers⟩, .ofExcept .bool r.2)
  | .flushAll =>
    let r := s.pool.flushAll
    (⟨r.1, s.callers⟩, .ofExcept (fun _ => .unit) r.2)
  | .modify caller pageId page =>
    let callers := s.callers.write pageId page
    (⟨s.pool.modify pageId page,
      { callers with unreported := (caller, pageId) :: callers.unreported }⟩, .unit)

/-- A file of whole pages: each block is a page that carries the block's number. -/
def WholePages (file : Bytes) : Prop :=
  file.length % PAGE_SIZE = 0 ∧ ∀ k < file.length / PAGE_SIZE, ∃ page,
    Page.fromBytes (block file k) = some page ∧ page.header.pageId = k ∧ page.Preserved

def writtenAtFirst (file : Bytes) (pageId : ℤ) : Option Page :=
  if 0 ≤ pageId ∧ pageId < (file.length / PAGE_SIZE : ℕ) then
    Page.fromBytes (block file pageId.toNat)
  else none

def sessionMachine (n : ℕ) [NeZero n] (κ : Type) [DecidableEq κ] (file : Bytes) :
    Machine (Session n κ) (Action κ) PoolReply where
  init := ⟨.new (.ofFile file), ⟨[], [], writtenAtFirst file⟩⟩
  enabled := Session.enabled
  step := Session.step

end PySQL.Storage
