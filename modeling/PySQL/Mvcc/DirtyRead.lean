import PySQL.Mvcc.GarbageCollection

/-!
# No dirty and no aborted reads

Each version of a chain was put there by a write that is on record, whatever was later stacked on it
or cut off above it.  A reader only takes versions of its own and of the transactions in its
snapshot, and those had committed before it began.
-/

namespace PySQL.Mvcc

open Lib MVCCManager

set_option linter.unusedSectionVars false

variable {τ κ δ : Type*} [DecidableEq τ] [DecidableEq κ]
variable {tr : History τ κ δ} {m m' : MVCCManager τ κ δ}

/-- A write_version that returned True. -/
def IsWrite (i : ℕ) (t : τ) (k : κ) (d : δ) (e : Step τ κ δ) : Prop :=
  e.input = .write i t k d ∧ e.reply = .bool true

def IsAbort (i : ℕ) (e : Step τ κ δ) : Prop := e.input = .abort i

/-- All versions of a chain. -/
def VersionChain.versions (c : VersionChain δ) : List (VersionRecord δ) := c.head :: c.prevs

/-- Every value that a read returns was written by the reader, or by a transaction that committed
before the reader began and never aborts. -/
def CleanReads (tr : History τ κ δ) : Prop :=
  ∀ (p i : ℕ) (t : τ) (k : κ) (d : δ) (e : Step τ κ δ), tr[p]? = some e → e.input = .read i t k →
    e.reply = .data (some d) →
    (∃ q < p, At tr q (IsWrite i t k d)) ∨
    ∃ j b c q, At tr b (IsBegin i) ∧ At tr c (IsCommit j) ∧ At tr q (IsWrite j t k d) ∧
      q < c ∧ c < b ∧ b < p ∧ ∀ e ∈ tr, ¬IsAbort j e

/-! ## Where versions come from -/

/-- Aborting a chain leaves creators and data as they are. -/
theorem mem_abortChain {i : ℕ} {c c' : VersionChain δ} (h : abortChain i c = some c')
    {v : VersionRecord δ} (hv : v ∈ c'.versions) :
    ∃ w ∈ c.versions, w.xmin = v.xmin ∧ w.data = v.data := by
  unfold abortChain at h
  split at h
  · cases hprevs : c.prevs with
    | nil =>
      rw [hprevs] at h
      cases h
    | cons p ps =>
      rw [hprevs] at h
      obtain rfl := Option.some.inj h
      rcases List.mem_cons.mp hv with rfl | hv
      · refine ⟨p, List.mem_cons_of_mem _ (hprevs ▸ List.mem_cons_self), ?_⟩
        -- clearing the xmax of the restored version touches neither field
        split <;> exact ⟨rfl, rfl⟩
      · exact ⟨v, List.mem_cons_of_mem _ (hprevs ▸ List.mem_cons_of_mem _ hv), rfl, rfl⟩
  · split at h
    · obtain rfl := Option.some.inj h
      rcases List.mem_cons.mp hv with rfl | hv
      · exact ⟨c.head, List.mem_cons_self, rfl, rfl⟩
      · exact ⟨v, List.mem_cons_of_mem _ hv, rfl, rfl⟩
    · obtain rfl := Option.some.inj h
      exact ⟨v, hv, rfl, rfl⟩

/-- A version after a step was there before, up to its xmax, or the step has written it. -/
theorem MVCCManager.Effect.versions_pred {call : Call τ κ δ} {reply : Reply δ}
    (he : Effect m call m' reply) {t : τ} {k : κ} {c' : VersionChain δ}
    (hc' : m'.chain? t k = some c') {v : VersionRecord δ} (hv : v ∈ c'.versions) :
    (∃ c w, m.chain? t k = some c ∧ w ∈ c.versions ∧ w.xmin = v.xmin ∧ w.data = v.data) ∨
      call = .write v.xmin t k v.data ∧ reply = .bool true := by
  have same : m.chain? t k = some c' →
      ∃ c w, m.chain? t k = some c ∧ w ∈ c.versions ∧ w.xmin = v.xmin ∧ w.data = v.data :=
    fun hc => ⟨c', v, hc, hv, rfl, rfl⟩
  cases he with
  | begin isolation => exact .inl (same hc')
  | @write txn t' k' d hget hact hfree =>
    rw [chain?_storeChain] at hc'
    split at hc'
    · next hkey =>
      obtain ⟨rfl, rfl⟩ := hkey
      obtain rfl := Option.some.inj hc'
      rcases List.mem_cons.mp hv with rfl | hv
      · exact .inr ⟨rfl, rfl⟩
      · refine .inl ?_
        cases hold : m.chain? t' k' with
        | none =>
          rw [hold] at hv
          cases hv
        | some old =>
          rw [hold] at hv
          rcases List.mem_cons.mp hv with rfl | hv
          · exact ⟨old, old.head, rfl, List.mem_cons_self, rfl, rfl⟩
          · exact ⟨old, v, rfl, List.mem_cons_of_mem _ hv, rfl, rfl⟩
    · exact .inl (same hc')
  | @delete txn c t' k' hget hact hc hfree =>
    rw [chain?_storeChain] at hc'
    split at hc'
    · next hkey =>
      obtain ⟨rfl, rfl⟩ := hkey
      obtain rfl := Option.some.inj hc'
      rcases List.mem_cons.mp hv with rfl | hv
      · exact .inl ⟨c, c.head, hc, List.mem_cons_self, rfl, rfl⟩
      · exact .inl ⟨c, v, hc, List.mem_cons_of_mem _ hv, rfl, rfl⟩
    · exact .inl (same hc')
  | refusedWrite => exact .inl (same hc')
  | refusedDelete => exact .inl (same hc')
  | read => exact .inl (same hc')
  | readNone => exact .inl (same hc')
  | commit => exact .inl (same hc')
  | abort hget hact =>
    rw [chain?_doAbort, Option.bind_eq_some_iff] at hc'
    obtain ⟨c, hc, hab⟩ := hc'
    obtain ⟨w, hw, hmin, hdata⟩ := mem_abortChain hab hv
    exact .inl ⟨c, w, hc, hw, hmin, hdata⟩
  | garbageCollect =>
    rw [chain?_garbageCollect, Option.map_eq_some_iff] at hc'
    obtain ⟨c, hc, rfl⟩ := hc'
    have hsub := (trimPrevs_initial m.minActive m.committedTxns c.prevs).subset
    exact .inl ⟨c, v, hc, List.cons_subset_cons _ hsub hv, rfl, rfl⟩

/-- Every version of every chain was written by a call on record. -/
def Written (tr : History τ κ δ) (m : MVCCManager τ κ δ) : Prop :=
  ∀ t k c, m.chain? t k = some c → ∀ v ∈ c.versions, ∃ q, At tr q (IsWrite v.xmin t k v.data)

theorem Written.step (h : Written tr m) {call : Call τ κ δ} {reply : Reply δ}
    (he : Effect m call m' reply) {e : Step τ κ δ} (hin : e.input = call) (hre : e.reply = reply) :
    Written (tr ++ [e]) m' := by
  intro t k c' hc' v hv
  rcases he.versions_pred hc' hv with ⟨c, w, hc, hw, hmin, hdata⟩ | ⟨hcall, hreply⟩
  · obtain ⟨q, hq⟩ := h t k c hc w hw
    rw [hmin, hdata] at hq
    exact ⟨q, at_snoc.mpr (.inl hq)⟩
  · exact ⟨tr.length, at_snoc.mpr (.inr ⟨rfl, hin.trans hcall, hre.trans hreply⟩)⟩

theorem written_of_run (h : (machine τ κ δ).Run tr m) : Written tr m :=
  h.invariant (by simp [Written, machine, init, chain?]) fun _ _ _ hr hw hen =>
    hw.step (effect_of_enabled ⟨_, hr⟩ hen) rfl rfl

/-! ## Aborts are on record, too -/

theorem aborted_of_run (h : (machine τ κ δ).Run tr m) :
    ∀ e ∈ tr, ∀ i, IsAbort i e → i ∈ m.abortedTxns := by
  refine h.invariant (I := fun tr m => ∀ e ∈ tr, ∀ i, IsAbort i e → i ∈ m.abortedTxns) (by simp) ?_
  intro tr m call hr hold hen e he i hab
  have heff := effect_of_enabled ⟨_, hr⟩ hen
  rcases List.mem_append.mp he with he | he
  · exact heff.aborted_mono (hold e he i hab)
  · obtain rfl := List.mem_singleton.mp he
    obtain rfl : call = .abort i := hab
    change i ∈ (m.step (.abort i)).1.abortedTxns
    generalize hreply : (m.step (.abort i)).2 = reply at heff
    generalize hpost : (m.step (.abort i)).1 = post at heff ⊢
    cases heff with
    | @abort txn hget hact =>
      exact (List.mem_insert_self : txn.txnId ∈ m.abortedTxns.insert txn.txnId)

/-- A transaction that commits never aborts. -/
theorem not_abort_of_commit (h : (machine τ κ δ).Run tr m) {j c : ℕ} (hc : At tr c (IsCommit j)) :
    ∀ e ∈ tr, ¬IsAbort j e := by
  intro e he hab
  have hwf := wf_of_reachable ⟨_, h⟩
  have hcommitted := ((recorded_of_run h).committed j).mpr ⟨c, hc⟩
  exact (hwf.aborted_not_committed (aborted_of_run h e he j hab)).1 hcommitted

/-! ## Reads -/

/-- A write on record before a commit of its transaction stands before that commit. -/
theorem write_lt_commit (h : (machine τ κ δ).Run tr m) {j q c : ℕ} {t : τ} {k : κ} {d : δ}
    (hq : At tr q (IsWrite j t k d)) (hc : At tr c (IsCommit j)) : q < c := by
  obtain ⟨e, he, hwrite⟩ := hq
  have hle := call_le_commit h he (by rw [hwrite.1]; rfl) hc
  refine lt_of_le_of_ne hle ?_
  rintro rfl
  obtain ⟨e', he', hcommit⟩ := hc
  rw [he] at he'
  obtain rfl := Option.some.inj he'
  have hinput := hwrite.1.symm.trans hcommit.1
  cases hinput

/-- Reads are clean in every run. -/
theorem cleanReads (h : (machine τ κ δ).Run tr m) : CleanReads tr := by
  intro p i t k d e hp hread hdata
  obtain ⟨hr, hen, hev⟩ := h.event_at hp
  have hwf := wf_of_reachable ⟨_, hr⟩
  obtain ⟨txn, hget, -⟩ := hen i (by rw [hread]; rfl)
  obtain rfl := (hwf.txnId i txn hget).1
  -- the version that is read
  have hreply : e.reply = .data (view txn (e.pre.chain? t k)) := by
    rw [← step_read hget t k, ← hread]
    exact congrArg Event.reply hev
  rw [hdata] at hreply
  obtain ⟨v, hv, hvd⟩ := Option.map_eq_some_iff.mp (Reply.data.inj hreply).symm
  obtain ⟨c, hc, hfind⟩ := Option.bind_eq_some_iff.mp hv
  have hmem : v ∈ c.versions := List.mem_of_find?_eq_some hfind
  have hvisible := List.find?_some hfind
  obtain ⟨q, hq⟩ := written_of_run hr t k c hc v hmem
  have hqp : q < p := by
    have hlt := hq.lt
    rw [List.length_take] at hlt
    omega
  have hq' := (at_take hqp).mp hq
  rw [hvd] at hq'
  rw [isVisibleTo_iff hwf.toTableWF hget] at hvisible
  rcases hvisible.1 with hown | hcommitted
  · rw [hown] at hq'
    exact .inl ⟨q, hqp, hq'⟩
  · obtain ⟨b, hb, hsnapshot⟩ := (recorded_of_run hr).began _ txn hget
    obtain ⟨c', hcb, hc'⟩ := (hsnapshot v.xmin).mp hcommitted
    have hbp : b < p := by
      have hlt := hb.lt
      rw [List.length_take] at hlt
      omega
    have hc'' := (at_take (hcb.trans hbp)).mp hc'
    exact .inr ⟨v.xmin, b, c', q, (at_take hbp).mp hb, hc'', hq', write_lt_commit h hq' hc'', hcb,
      hbp, not_abort_of_commit h hc''⟩

/-- A write is read by its own transaction and by one that begins after the commit. -/
def readBack : List (Call ℕ ℕ ℕ) :=
  [.begin .snapshot, .write 1 0 0 10, .read 1 0 0, .commit 1, .begin .snapshot, .read 2 0 0]

theorem cleanReads_readBack : CleanReads ((machine ℕ ℕ ℕ).trace init readBack) :=
  cleanReads (Machine.run_of_legal (by decide))

end PySQL.Mvcc
