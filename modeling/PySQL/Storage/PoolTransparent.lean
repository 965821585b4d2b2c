import PySQL.Storage.PoolCoherent

/-!
# The buffer pool is transparent
-/

namespace PySQL.Storage

open Lib

set_option linter.unusedSectionVars false

variable {κ : Type} [DecidableEq κ] {n : ℕ} [NeZero n]

section Runs

variable {file : Bytes} {s : Session n κ} {action : Action κ}
  {tr : List (Event (Session n κ) (Action κ) PoolReply)}

theorem coherent_init (h : WholePages file) :
    Coherent (BufferPool.new (.ofFile file) : BufferPool n)
      (⟨[], [], writtenAtFirst file⟩ : Callers κ) := by
  obtain ⟨hwhole, hpages⟩ := h
  -- the last page's number fits its field
  have hle : file.length / PAGE_SIZE ≤ 2 ^ 32 := by
    rcases Nat.eq_zero_or_pos (file.length / PAGE_SIZE) with hzero | hpos
    · omega
    · obtain ⟨page, hread, hid, -⟩ := hpages (file.length / PAGE_SIZE - 1) (by omega)
      have := Page.pageId_lt_of_fromBytes hread
      omega
  have hon : pagesOn (DiskManager.ofFile file) = file.length / PAGE_SIZE := Nat.min_eq_left hle
  have hexists : ∀ pageId, (writtenAtFirst file pageId).isSome ↔
      0 ≤ pageId ∧ pageId < (file.length / PAGE_SIZE : ℕ) := by
    intro pageId
    unfold writtenAtFirst
    split
    · next hin =>
      obtain ⟨page, hread, -, -⟩ := hpages pageId.toNat (by omega)
      rw [hread]
      simpa using hin
    · next hout => simpa using hout
  exact {
    sync := BufferPool.new_sync _
    size := by
      rw [BufferPool.new, hon]
      exact (Nat.div_mul_cancel (Nat.dvd_of_mod_eq_zero hwhole)).symm
    exists_iff := by
      intro pageId
      rw [BufferPool.new, hon]
      exact hexists pageId
    resident := fun _ _ hf => nomatch hf
    pinCount := fun _ _ hf => nomatch hf
    held := fun _ hx => nomatch hx
    reported := fun _ hx => nomatch hx
    readable := by
      intro k hk
      rw [BufferPool.new, hon] at hk
      exact hpages k hk
    stored := by
      intro pageId hw
      obtain ⟨q, hq : writtenAtFirst file pageId = some q⟩ := Option.isSome_iff_exists.mp hw
      refine .inl ⟨q, q, ?_, hq, rfl⟩
      rwa [writtenAtFirst, if_pos ((hexists pageId).mp hw)] at hq }

/-- What a step owes its callers: the page fetched is as last written, and after a flush with no
pins every page is on file as last written. -/
def Transparent (e : Event (Session n κ) (Action κ) PoolReply) (s' : Session n κ) : Prop :=
  (∀ caller pageId page?, e.input = .fetchPage caller pageId → e.reply = .page page? →
    ∃ page w, page? = some page ∧ e.pre.callers.written pageId = some w ∧
      page.contents = w.contents) ∧
  (e.input = .flushAll → e.pre.callers.pins = [] → e.reply = .unit ∧
    ∀ pageId w, e.pre.callers.written pageId = some w → ∃ page,
      s'.pool.disk.readPage pageId = .ok page ∧ page.contents = w.contents)

theorem step_spec (h : Coherent s.pool s.callers) (hi : s.enabled action) :
    Coherent (s.step action).1.pool (s.step action).1.callers ∧
      Transparent ⟨s, action, (s.step action).2⟩ (s.step action).1 := by
  cases action with
  | fetchPage caller pageId =>
    have hspec := h.fetchPage hi caller
    refine ⟨?_, ?_, fun heq => nomatch heq⟩
    · rcases heq : s.pool.fetchPage pageId with ⟨b', e | page?⟩ <;> rw [heq] at hspec <;>
        simp only [Session.step, heq]
      · exact hspec
      · exact hspec.1
    · intro caller' pageId' page? heq hreply
      cases heq
      rcases heq : s.pool.fetchPage pageId with ⟨b', e | page?'⟩ <;> rw [heq] at hspec <;>
        simp only [Session.step, heq, PoolReply.ofExcept] at hreply <;> cases hreply
      exact hspec.2
  | newPage caller pageType =>
    have hspec := h.newPage pageType caller
    refine ⟨?_, fun _ _ _ heq => (nomatch heq), fun heq => nomatch heq⟩
    rcases heq : s.pool.newPage pageType with ⟨b', e | page⟩ <;> rw [heq] at hspec <;>
      simp only [Session.step, heq] <;> exact hspec
  | unpinPage caller pageId isDirty =>
    exact ⟨h.unpinPage hi.1 hi.2, fun _ _ _ heq => (nomatch heq), fun heq => nomatch heq⟩
  | flushPage pageId =>
    exact ⟨h.flushPage pageId, fun _ _ _ heq => (nomatch heq), fun heq => nomatch heq⟩
  | flushAll =>
    obtain ⟨b', hflush, hco, hcurrent⟩ := h.flushAll
    refine ⟨?_, fun _ _ _ heq => (nomatch heq), fun _ hpins => ?_⟩
    · simp only [Session.step, hflush]
      exact hco
    · simp only [Session.step, hflush]
      refine ⟨rfl, fun pageId w hw => ?_⟩
      have hsome : (s.callers.written pageId).isSome := by rw [hw]; rfl
      obtain ⟨q, w', hq, hw', hcontents⟩ := hcurrent hpins pageId hsome
      rw [hw] at hw'
      cases hw'
      obtain ⟨h0, hlt⟩ := (hco.exists_iff pageId).mp hsome
      obtain ⟨k, rfl⟩ := Int.eq_ofNat_of_zero_le h0
      have hk : k < pagesOn b'.disk := by omega
      exact ⟨q, readPage_eq (hk.trans_le (Nat.min_le_left _ _)) (hco.room hk) hq, hcontents⟩
  | modify caller pageId page =>
    exact ⟨h.modify hi.1 hi.2.1 hi.2.2, fun _ _ _ heq => (nomatch heq), fun heq => nomatch heq⟩

theorem coherent_of_run (hfile : WholePages file) (h : (sessionMachine n κ file).Run tr s) :
    Coherent s.pool s.callers := by
  refine h.invariant (I := fun _ s => Coherent s.pool s.callers) (coherent_init hfile) ?_
  intro tr s i _ hI hi
  exact (step_spec hI hi).1

/-- In every run every fetch that returns yields the page as it was last written, and every flush
without pins leaves every page so on disk. -/
theorem transparent_of_run (hfile : WholePages file) (h : (sessionMachine n κ file).Run tr s) :
    ∀ e ∈ tr, Transparent e ((sessionMachine n κ file).post e) := by
  intro e he
  obtain ⟨⟨l, hl⟩, hi, heq⟩ := h.mem_event he
  have hspec := (step_spec (coherent_of_run hfile hl) hi).2
  rwa [heq]

end Runs

/-- A page of the zero file is fetched, replaced by a fresh data page, reported and flushed. -/
def rewritePage : List (Action ℕ) :=
  [.fetchPage 0 0, .modify 0 0 (Page.new 0 .heapData), .unpinPage 0 0 true, .flushAll]

theorem zeroFile_wholePages : WholePages zeroFile := by
  refine ⟨by decide +kernel, fun k hk => ?_⟩
  have hone : zeroFile.length / PAGE_SIZE = 1 := by decide +kernel
  obtain rfl : k = 0 := by omega
  have hlen : (block zeroFile 0).length = PAGE_SIZE := length_block (by decide +kernel)
  have hread : (Page.fromBytes (block zeroFile 0)).map (fun q => (q.header, q.slots)) =
      some ({ freeSpace := 0, dataEnd := 0, nextPage := 0, prevPage := 0 }, []) := by decide +kernel
  obtain ⟨q, hq, hfields⟩ := Option.map_eq_some_iff.mp hread
  rw [Prod.mk.injEq] at hfields
  obtain ⟨hheader, hslots⟩ := hfields
  have hdata := ((Page.fromBytes_eq_some hlen).mp hq).1
  refine ⟨q, hq, by rw [hheader], Page.Documented.preserved ⟨?_, ?_, ?_, ?_, ?_, ?_⟩⟩
  · rw [hdata, hlen]
  · rw [hheader]
    decide
  · rw [hheader, hslots]
    rfl
  · rw [hslots]
    decide
  · rw [hslots]
    exact fun _ hs => nomatch hs
  · rw [hslots]
    exact fun _ hs => nomatch hs

theorem enabled_first {file : Bytes} {caller : κ} {pageId : ℤ}
    (h : (writtenAtFirst file pageId).isSome) : (sessionMachine n κ file).enabled
      (sessionMachine n κ file).init (.fetchPage caller pageId) := h

theorem rewritePage_run : (sessionMachine 1 ℕ zeroFile).Run
    ((sessionMachine 1 ℕ zeroFile).trace (sessionMachine 1 ℕ zeroFile).init rewritePage)
    ((sessionMachine 1 ℕ zeroFile).exec (sessionMachine 1 ℕ zeroFile).init rewritePage) := by
  refine Machine.run_of_legal ⟨?_, ⟨?_, rfl, Page.preserved_new (by decide) _⟩, ⟨?_, ?_⟩, trivial, trivial⟩
  · exact enabled_first (by decide +kernel)
  · decide +kernel
  · decide +kernel
  · intro heq
    cases heq

theorem transparent_of_run_rewritePage :
    ((sessionMachine 1 ℕ zeroFile).trace (sessionMachine 1 ℕ zeroFile).init rewritePage).Forall
      fun e => Transparent e ((sessionMachine 1 ℕ zeroFile).post e) := by
  rw [List.forall_iff_forall_mem]
  exact transparent_of_run zeroFile_wholePages rewritePage_run

end PySQL.Storage
