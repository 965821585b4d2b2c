import PySQL.Mvcc.DirtyRead

/-!
# A transaction reads its own writes

Until a transaction updates a key again, its own version stays in the chain: others put versions
above it that it does not see, and stamp it with ids outside its snapshot.
-/

namespace PySQL.Mvcc

open Lib MVCCManager

set_option linter.unusedSectionVars false

variable {τ κ δ : Type*} [DecidableEq τ] [DecidableEq κ]
variable {tr : History τ κ δ} {m m' : MVCCManager τ κ δ} {txn : Transaction τ κ} {t : τ} {k : κ}

/-- After a write_version that returned True the transaction reads what it wrote, up to its next
update of the key that returns True. -/
def ReadsOwnWrites (tr : History τ κ δ) : Prop :=
  ∀ (w p i : ℕ) (t : τ) (k : κ) (d : δ) (e : Step τ κ δ), At tr w (IsWrite i t k d) →
    tr[p]? = some e → w < p → e.input = .read i t k →
    (∀ e' ∈ (tr.take p).drop (w + 1), ¬ IsUpdate i t k e') → e.reply = .data (some d)

/-! ## What the others do to a chain -/

/-- What a call does to the chain of a key if it is no update of the key by `txn`; the transactions
that stamp are active ones, and only a garbage collection trims. -/
inductive ChainStep (m : MVCCManager τ κ δ) (txn : Transaction τ κ) (gc : Prop) :
    Option (VersionChain δ) → Option (VersionChain δ) → Prop where
  | same (c?) : ChainStep m txn gc c? c?
  | write {j} (c? d) (hj : j ∈ m.activeTxns) (hne : j ≠ txn.txnId)
      (hfree : ∀ c, c? = some c → c.head.xmax = txn.txnId → txn.txnId ∉ m.activeTxns) :
      ChainStep m txn gc c? (some ⟨{ data := d, xmin := j }, supersede j c?⟩)
  | delete {j} (c) (hj : j ∈ m.activeTxns) (hne : j ≠ txn.txnId)
      (hfree : c.head.xmax = txn.txnId → txn.txnId ∉ m.activeTxns) :
      ChainStep m txn gc (some c) (some { c with head := { c.head with xmax := j } })
  | abort {j} (c?) (hj : j ∈ m.activeTxns) (hne : j ≠ txn.txnId) :
      ChainStep m txn gc c? (c?.bind (abortChain j))
  | trim (c) (hgc : gc) : ChainStep m txn gc (some c) (some (m.trimChain c))

theorem writeConflict_of_stamped {other : Transaction τ κ} {v : VersionRecord δ}
    (hfree : m.writeConflict other v = false) (hv : v.xmax = txn.txnId) (hne : other.txnId ≠ txn.txnId)
    (hpos : 1 ≤ txn.txnId) : txn.txnId ∉ m.activeTxns := by
  intro hact
  have hzero : v.xmax ≠ 0 := by omega
  have hother : v.xmax ≠ other.txnId := hv ▸ hne.symm
  rw [← hv] at hact
  simp [writeConflict, hzero, hother, hact] at hfree

/-- A step in which an active transaction stays active and does not update the key. -/
theorem MVCCManager.Effect.chainStep (h : m.WF) {call : Call τ κ δ} {reply : Reply δ}
    (he : Effect m call m' reply) (hget : m.txns.get? txn.txnId = some txn)
    (hact' : m'.IsActive txn.txnId) {e : Step τ κ δ} (hin : e.input = call) (hre : e.reply = reply)
    (hno : ¬ IsUpdate txn.txnId t k e) :
    ChainStep m txn (call = .garbageCollect) (m.chain? t k) (m'.chain? t k) := by
  have hpos := (h.txnId _ txn hget).2.1
  cases he with
  | begin isolation => exact .same _
  | @write writer t' k' d hgetw hactw hfree =>
    rw [chain?_storeChain]
    split
    · next hkey =>
      obtain ⟨rfl, rfl⟩ := hkey
      have hne : writer.txnId ≠ txn.txnId := by
        intro hid
        exact hno ⟨.inl ⟨d, by rw [hin, hid]⟩, hre⟩
      refine .write _ d ((h.active _).mpr ⟨writer, hgetw, hactw⟩) hne fun c hc hmax => ?_
      exact writeConflict_of_stamped (hfree c hc) hmax hne hpos
    · exact .same _
  | @delete writer c t' k' hgetw hactw hc hfree =>
    rw [chain?_storeChain]
    split
    · next hkey =>
      obtain ⟨rfl, rfl⟩ := hkey
      have hne : writer.txnId ≠ txn.txnId := by
        intro hid
        exact hno ⟨.inr (by rw [hin, hid]), hre⟩
      rw [hc]
      refine .delete c ((h.active _).mpr ⟨writer, hgetw, hactw⟩) hne fun hmax => ?_
      exact writeConflict_of_stamped hfree hmax hne hpos
    · exact .same _
  | refusedWrite => exact .same _
  | refusedDelete => exact .same _
  | read => exact .same _
  | readNone => exact .same _
  | commit => exact .same _
  | @abort other hgeto hacto =>
    rw [chain?_doAbort]
    refine .abort _ ((h.active _).mpr ⟨other, hgeto, hacto⟩) fun hid => ?_
    -- the transaction would no longer be active
    obtain ⟨txn', hget', hst⟩ := hact'
    rw [← hid] at hget'
    obtain rfl : _ = txn' := Option.some.inj ((Dict.get?_set_self _ _ _).symm.trans hget')
    cases hst
  | garbageCollect =>
    rw [chain?_garbageCollect]
    cases hc : m.chain? t k with
    | none => exact .same none
    | some c => exact .trim c rfl

/-! ## The own version stays -/

/-- A version that the transaction neither wrote nor finds committed. -/
def Foreign (txn : Transaction τ κ) (v : VersionRecord δ) : Prop :=
  v.xmin ≠ txn.txnId ∧ ¬ txn.snapshot.isCommitted v.xmin

/-- The transaction's own version with the data is in the chain, live to it, below foreign ones. -/
def Owns (txn : Transaction τ κ) (d : δ) (vs : List (VersionRecord δ)) : Prop :=
  ∃ above v below, vs = above ++ v :: below ∧ v.xmin = txn.txnId ∧ v.data = d ∧
    v.xmax ≠ txn.txnId ∧ ¬ txn.snapshot.isCommitted v.xmax ∧ ∀ u ∈ above, Foreign txn u

theorem not_visible_of_foreign (h : m.TableWF) (hget : m.txns.get? txn.txnId = some txn)
    {v : VersionRecord δ} (hv : Foreign txn v) : ¬ v.isVisibleTo txn.txnId txn.snapshot = true := by
  rw [isVisibleTo_iff h hget]
  exact fun hvisible => hvisible.1.elim hv.1 hv.2

theorem Owns.viewList (h : m.TableWF) (hget : m.txns.get? txn.txnId = some txn) {d : δ}
    {vs : List (VersionRecord δ)} (hown : Owns txn d vs) : viewList txn vs = some d := by
  obtain ⟨above, v, below, rfl, hmin, rfl, hmax, hcommitted, habove⟩ := hown
  have hvisible : v.isVisibleTo txn.txnId txn.snapshot = true :=
    (isVisibleTo_iff h hget v).mpr ⟨.inl hmin, hmax, hcommitted⟩
  induction above with
  | nil =>
    show (List.find? _ _).map _ = _
    rw [List.nil_append, List.find?_cons, hvisible]
    rfl
  | cons u above ih =>
    have hu := not_visible_of_foreign h hget (habove u List.mem_cons_self)
    rw [List.cons_append, viewList_cons_of_not_visible _ hu]
    exact ih fun w hw => habove w (List.mem_cons_of_mem u hw)

theorem Owns.cons {d : δ} {u : VersionRecord δ} {vs : List (VersionRecord δ)}
    (h : Owns txn d vs) (hu : Foreign txn u) : Owns txn d (u :: vs) := by
  obtain ⟨above, v, below, rfl, hmin, hd, hmax, hcommitted, habove⟩ := h
  exact ⟨u :: above, v, below, rfl, hmin, hd, hmax, hcommitted, List.forall_mem_cons.mpr ⟨hu, habove⟩⟩

/-- Stamping the first version with an id that means nothing to the transaction. -/
theorem Owns.restamp {d : δ} {u : VersionRecord δ} {vs : List (VersionRecord δ)}
    (h : Owns txn d (u :: vs)) {x : ℕ} (hne : x ≠ txn.txnId)
    (hx : ¬ txn.snapshot.isCommitted x) : Owns txn d ({ u with xmax := x } :: vs) := by
  obtain ⟨above, v, below, hvs, hmin, hd, hmax, hcommitted, habove⟩ := h
  cases above with
  | nil =>
    obtain ⟨rfl, rfl⟩ := List.cons.inj hvs
    exact ⟨[], _, vs, rfl, hmin, hd, hne, hx, by simp⟩
  | cons u' above =>
    obtain ⟨rfl, rfl⟩ := List.cons.inj hvs
    obtain ⟨hu, habove⟩ := List.forall_mem_cons.mp habove
    exact ⟨{ u with xmax := x } :: above, v, below, rfl, hmin, hd, hmax, hcommitted,
      List.forall_mem_cons.mpr ⟨hu, habove⟩⟩

theorem Owns.tail {d : δ} {u : VersionRecord δ} {vs : List (VersionRecord δ)}
    (h : Owns txn d (u :: vs)) (hu : u.xmin ≠ txn.txnId) : Owns txn d vs := by
  obtain ⟨above, v, below, hvs, hmin, hd, hmax, hcommitted, habove⟩ := h
  cases above with
  | nil =>
    obtain ⟨rfl, -⟩ := List.cons.inj hvs
    exact absurd hmin hu
  | cons u' above =>
    obtain ⟨-, rfl⟩ := List.cons.inj hvs
    exact ⟨above, v, below, rfl, hmin, hd, hmax, hcommitted, (List.forall_mem_cons.mp habove).2⟩

theorem Owns.ne_nil {d : δ} (h : Owns txn d ([] : List (VersionRecord δ))) : False := by
  obtain ⟨above, v, below, hvs, -⟩ := h
  cases above <;> cases hvs

theorem Owns.abort {d : δ} {c : VersionChain δ} (h : Owns txn d c.versions) {j : ℕ}
    (hj : j ≠ txn.txnId) (hzero : (0 : ℕ) ≠ txn.txnId ∧ ¬ txn.snapshot.isCommitted 0) :
    ∃ c', abortChain j c = some c' ∧ Owns txn d c'.versions := by
  unfold abortChain
  split
  · next hmin =>
    -- the head of the aborted transaction is popped; it is not the own version
    have htail := h.tail (hmin ▸ hj)
    cases hprevs : c.prevs with
    | nil =>
      rw [hprevs] at htail
      exact htail.ne_nil.elim
    | cons p ps =>
      rw [hprevs] at htail
      refine ⟨_, rfl, ?_⟩
      show Owns txn d ((if p.xmax = j then { p with xmax := 0 } else p) :: ps)
      split
      · exact htail.restamp hzero.1 hzero.2
      · exact htail
  · split
    · exact ⟨_, rfl, h.restamp hzero.1 hzero.2⟩
    · exact ⟨c, rfl, h⟩

/-- The version is in the chain of the key. -/
def OwnsKey (txn : Transaction τ κ) (d : δ) (c? : Option (VersionChain δ)) : Prop :=
  ∃ c, c? = some c ∧ Owns txn d c.versions

theorem ChainStep.owns (h : m.TableWF) (hget : m.txns.get? txn.txnId = some txn) {d : δ}
    {c? c?' : Option (VersionChain δ)} {gc : Prop} (hstep : ChainStep m txn gc c? c?') (hgc : ¬ gc)
    (hown : OwnsKey txn d c?) : OwnsKey txn d c?' := by
  have hactive : ∀ {j}, j ∈ m.activeTxns → ¬ txn.snapshot.isCommitted j := fun hj => by
    rw [h.not_isCommitted hget (.inr (.inl hj))]
    exact Bool.false_ne_true
  have hpos := (h.txnId _ txn hget).2.1
  have hzero : (0 : ℕ) ≠ txn.txnId ∧ ¬ txn.snapshot.isCommitted 0 := by
    rw [h.not_isCommitted hget (.inl rfl)]
    exact ⟨by omega, Bool.false_ne_true⟩
  obtain ⟨c, rfl, hc⟩ := hown
  cases hstep with
  | same => exact ⟨c, rfl, hc⟩
  | @write j _ d' hj hne hfree =>
    refine ⟨_, rfl, Owns.cons ?_ ⟨hne, hactive hj⟩⟩
    exact hc.restamp hne (hactive hj)
  | @delete j _ hj hne hfree => exact ⟨_, rfl, hc.restamp hne (hactive hj)⟩
  | @abort j _ hj hne =>
    obtain ⟨c', hc', hown'⟩ := hc.abort hne hzero
    exact ⟨c', hc', hown'⟩
  | trim _ htrim => exact absurd htrim hgc

/-! ## Whole runs -/

/-- Active transactions own the values they wrote last. -/
def Owned (tr : History τ κ δ) (m : MVCCManager τ κ δ) : Prop :=
  ∀ (w : ℕ) (txn : Transaction τ κ) (t : τ) (k : κ) (d : δ), At tr w (IsWrite txn.txnId t k d) →
    (∀ e ∈ tr.drop (w + 1), ¬ IsUpdate txn.txnId t k e) → m.txns.get? txn.txnId = some txn →
    txn.state = .active → OwnsKey txn d (m.chain? t k)

theorem OwnsKey.congr {txn' : Transaction τ κ} {d : δ} {c? : Option (VersionChain δ)}
    (h : OwnsKey txn d c?) (hid : txn'.txnId = txn.txnId) (hsn : txn'.snapshot = txn.snapshot) :
    OwnsKey txn' d c? := by
  simp only [OwnsKey, Owns, Foreign, hid, hsn] at h ⊢
  exact h

theorem IsWrite.isUpdate {i : ℕ} {d : δ} {e : Step τ κ δ} (h : IsWrite i t k d e) :
    IsUpdate i t k e :=
  ⟨.inl ⟨d, h.1⟩, h.2⟩

/-- The chain right after the transaction's own write. -/
theorem MVCCManager.Effect.ownsKey (h : m.WF) {call : Call τ κ δ} {reply : Reply δ}
    (he : Effect m call m' reply) (hget' : m'.txns.get? txn.txnId = some txn) {d : δ}
    (hcall : call = .write txn.txnId t k d) (hreply : reply = .bool true) :
    OwnsKey txn d (m'.chain? t k) := by
  have hwf' := he.wf h
  have hpos := (hwf'.txnId _ txn hget').2.1
  have hzero := hwf'.toTableWF.not_isCommitted hget' (.inl rfl)
  cases he with
  | @write writer t' k' d' hgetw hactw hfree =>
    obtain ⟨hid, rfl, rfl, rfl⟩ := Call.write.inj hcall
    rw [chain?_storeChain, if_pos ⟨rfl, rfl⟩]
    refine ⟨_, rfl, [], _, _, rfl, hid, rfl, ?_, ?_, by simp⟩
    · show (0 : ℕ) ≠ txn.txnId
      omega
    · show ¬ txn.snapshot.isCommitted 0 = true
      rw [hzero]
      exact Bool.false_ne_true
  | refusedWrite => cases hreply
  | _ => cases hcall

theorem owned_step (hr : (machine τ κ δ).Run tr m) (hown : Owned tr m) {call : Call τ κ δ}
    (hen : m.enabled call) (hgc : call ≠ .garbageCollect) :
    Owned (tr ++ [(machine τ κ δ).event m call]) (m.step call).1 := by
  intro w txn t k d hw hno hget' hact'
  have hwf := wf_of_reachable ⟨_, hr⟩
  have heff := effect_of_enabled ⟨_, hr⟩ hen
  rcases at_snoc.mp hw with hw | ⟨rfl, hwrite⟩
  · have hlt := hw.lt
    rw [List.drop_append_of_le_length hlt] at hno
    obtain ⟨e, he, hwrite⟩ := hw
    have hknown := (recorded_of_run hr).updater e (List.mem_of_getElem? he) _ t k hwrite.isUpdate
    obtain ⟨txn₀, hget₀⟩ := hknown
    rcases heff.active_pred hget' hact' with ⟨old, hget, hact, hid, hsn⟩ | ⟨hid, -⟩
    · have hold : OwnsKey old d (m.chain? t k) := by
        apply hown w old t k d ⟨e, he, hid ▸ hwrite⟩ _ hget hact
        intro e' he'
        rw [hid]
        exact hno e' (List.mem_append_left _ he')
      have hno' : ¬ IsUpdate old.txnId t k ((machine τ κ δ).event m call) := by
        rw [hid]
        exact hno _ (List.mem_append_right _ List.mem_cons_self)
      have hstep := heff.chainStep hwf hget (hid ▸ ⟨txn, hget', hact'⟩) rfl rfl hno'
      exact (hstep.owns hwf.toTableWF hget hgc hold).congr hid.symm hsn.symm
    · rw [hid, hwf.get?_next] at hget₀
      cases hget₀
  · exact heff.ownsKey hwf hget' hwrite.1 hwrite.2

/-- Without garbage collection every transaction reads its own writes. -/
theorem readsOwnWrites (h : (machine τ κ δ).Run tr m)
    (hgc : ∀ e ∈ tr, e.input ≠ .garbageCollect) : ReadsOwnWrites tr := by
  intro w p i t k d e hw hp hwp hread hno
  obtain ⟨hr, hen, hev⟩ := h.event_at hp
  have hwf := wf_of_reachable ⟨_, hr⟩
  obtain ⟨txn, hget, hact⟩ := hen i (by rw [hread]; rfl)
  obtain rfl := (hwf.txnId i txn hget).1
  have hown : Owned (tr.take p) e.pre :=
    hr.invariant_of (fun e he => hgc e (List.mem_of_mem_take he)) (by simp [Owned, At])
      fun _ _ _ hr hown hen hgc => owned_step hr hown hen hgc
  obtain ⟨c, hc, hc'⟩ := hown w txn t k d ((at_take hwp).mpr hw) hno hget hact
  have hreply : e.reply = .data (view txn (e.pre.chain? t k)) := by
    rw [← step_read hget t k, ← hread]
    exact congrArg Event.reply hev
  rw [hreply, hc, view_some]
  exact congrArg Reply.data (hc'.viewList hwf.toTableWF hget)

/-- Another transaction writes the key above the own version and commits. -/
def writtenOver : List (Call ℕ ℕ ℕ) :=
  [.begin .snapshot, .begin .snapshot, .write 1 0 0 10, .write 2 0 0 20, .read 1 0 0, .commit 2,
    .read 1 0 0]

theorem readsOwnWrites_writtenOver :
    ReadsOwnWrites ((machine ℕ ℕ ℕ).trace init writtenOver) :=
  readsOwnWrites (Machine.run_of_legal (by decide)) (by decide)

end PySQL.Mvcc
