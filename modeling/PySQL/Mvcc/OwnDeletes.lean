import PySQL.Mvcc.OwnWrites

/-!
# Whether a transaction sees its own deletes

`delete_version` marks the head of a chain.  A transaction that sees no version below the head sees
none until it writes the key; one that does reads on what it has deleted.
-/

namespace PySQL.Mvcc

open Lib MVCCManager

set_option linter.unusedSectionVars false

variable {τ κ δ : Type*} [DecidableEq τ] [DecidableEq κ]
variable {tr : History τ κ δ} {m m' : MVCCManager τ κ δ} {txn : Transaction τ κ} {t : τ} {k : κ}

/-- A delete_version that returned True. -/
def IsDelete (i : ℕ) (t : τ) (k : κ) (e : Step τ κ δ) : Prop :=
  e.input = .delete i t k ∧ e.reply = .bool true

/-- After a delete_version that returned True the transaction reads None, up to its next write of
the key that returns True. -/
def OwnDeletesHold (tr : History τ κ δ) : Prop :=
  ∀ (w p i : ℕ) (t : τ) (k : κ) (e : Step τ κ δ), At tr w (IsDelete i t k) → tr[p]? = some e →
    w < p → e.input = .read i t k →
    (∀ e' ∈ (tr.take p).drop (w + 1), ∀ d, ¬ IsWrite i t k d e') → e.reply = .data none

/-- Where the step deletes a key, the transaction sees no version below the head. -/
def DeletesAll (e : Step τ κ δ) : Prop :=
  ∀ txn t k c, IsDelete txn.txnId t k e → e.pre.txns.get? txn.txnId = some txn →
    e.pre.chain? t k = some c → ∀ v ∈ c.prevs, ¬ v.isVisibleTo txn.txnId txn.snapshot = true

/-! ## Chains in which the transaction sees nothing -/

/-- The transaction has marked the head and sees nothing below, or all versions are foreign. -/
def Hidden (txn : Transaction τ κ) (c : VersionChain δ) : Prop :=
  (c.head.xmax = txn.txnId ∧ ∀ v ∈ c.prevs, ¬ v.isVisibleTo txn.txnId txn.snapshot = true) ∨
    ∀ v ∈ c.versions, Foreign txn v

theorem Hidden.view (h : m.TableWF) (hget : m.txns.get? txn.txnId = some txn)
    {c : VersionChain δ} (hc : Hidden txn c) : view txn (some c) = none := by
  rw [view_some, viewList, Option.map_eq_none_iff, List.find?_eq_none]
  rcases hc with ⟨hmark, hprevs⟩ | hforeign
  · intro v hv
    rcases List.mem_cons.mp hv with rfl | hv
    · rw [isVisibleTo_iff h hget]
      exact fun hvisible => hvisible.2.1 hmark
    · exact hprevs v hv
  · exact fun v hv => not_visible_of_foreign h hget (hforeign v hv)

/-- Below a version of a transaction that is foreign, unseen versions are foreign: each was
superseded by the creator of the one above. -/
theorem foreign_of_not_visible (h : m.TableWF) (hget : m.txns.get? txn.txnId = some txn) :
    ∀ {u : VersionRecord δ} {vs : List (VersionRecord δ)}, Foreign txn u →
      List.IsChain (fun above below => below.xmax = above.xmin) (u :: vs) →
      (∀ v ∈ vs, ¬ v.isVisibleTo txn.txnId txn.snapshot = true) → ∀ v ∈ vs, Foreign txn v
  | _, [], _, _, _ => by simp
  | u, v :: vs, hu, hlinked, hunseen => by
    rw [List.isChain_cons_cons] at hlinked
    obtain ⟨hv, hvs⟩ := List.forall_mem_cons.mp hunseen
    rw [isVisibleTo_iff h hget, hlinked.1] at hv
    have hforeign : Foreign txn v := by
      constructor
      · exact fun hown => hv ⟨.inl hown, hu.1, hu.2⟩
      · exact fun hcommitted => hv ⟨.inr hcommitted, hu.1, hu.2⟩
    exact List.forall_mem_cons.mpr
      ⟨hforeign, foreign_of_not_visible h hget hforeign hlinked.2 hvs⟩

theorem Hidden.abort (h : m.TableWF) (hget : m.txns.get? txn.txnId = some txn)
    {c c' : VersionChain δ} (hc : Hidden txn c) (hlinked : Linked c) {j : ℕ}
    (hj : j ∈ m.activeTxns) (hne : j ≠ txn.txnId) (hab : abortChain j c = some c') :
    Hidden txn c' := by
  have hcj : ¬ txn.snapshot.isCommitted j := by
    rw [h.not_isCommitted hget (.inr (.inl hj))]
    exact Bool.false_ne_true
  have hversions : ∀ v ∈ c'.versions, ∃ w ∈ c.versions, w.xmin = v.xmin ∧ w.data = v.data :=
    fun v hv => mem_abortChain hab hv
  rcases hc with ⟨hmark, hprevs⟩ | hforeign
  · by_cases hmin : c.head.xmin = j
    · -- the marked head is popped; what was below it is foreign
      have hhead : Foreign txn c.head := ⟨hmin ▸ hne, hmin ▸ hcj⟩
      have hbelow := foreign_of_not_visible h hget hhead hlinked hprevs
      right
      intro v hv
      obtain ⟨w, hw, hwmin, -⟩ := hversions v hv
      rw [Foreign, ← hwmin]
      exact (List.forall_mem_cons.mpr ⟨hhead, hbelow⟩ : ∀ v ∈ c.versions, Foreign txn v) w hw
    · have hmax : c.head.xmax ≠ j := hmark ▸ hne.symm
      rw [abortChain, if_neg hmin, if_neg hmax] at hab
      obtain rfl := Option.some.inj hab
      exact .inl ⟨hmark, hprevs⟩
  · right
    intro v hv
    obtain ⟨w, hw, hwmin, -⟩ := hversions v hv
    rw [Foreign, ← hwmin]
    exact hforeign w hw

/-- Every chain of the key is hidden from the transaction. -/
def HiddenKey (txn : Transaction τ κ) (c? : Option (VersionChain δ)) : Prop :=
  ∀ c, c? = some c → Hidden txn c

theorem ChainStep.hidden (h : m.TableWF) (hget : m.txns.get? txn.txnId = some txn)
    (hact : txn.state = .active) {c? c?' : Option (VersionChain δ)} {gc : Prop}
    (hstep : ChainStep m txn gc c? c?') (hlinked : ∀ c, c? = some c → Linked c)
    (hhidden : HiddenKey txn c?) : HiddenKey txn c?' := by
  have hactive : txn.txnId ∈ m.activeTxns := (h.active _).mpr ⟨txn, hget, hact⟩
  have hforeign : ∀ {j}, j ∈ m.activeTxns → j ≠ txn.txnId → j ≠ txn.txnId ∧
      ¬ txn.snapshot.isCommitted j := fun hj hne => by
    rw [h.not_isCommitted hget (.inr (.inl hj))]
    exact ⟨hne, Bool.false_ne_true⟩
  cases hstep with
  | same => exact hhidden
  | @write j _ d hj hne hfree =>
    rintro _ ⟨⟩
    right
    refine List.forall_mem_cons.mpr ⟨hforeign hj hne, ?_⟩
    cases c? with
    | none => exact fun v hv => by cases hv
    | some c =>
      rcases hhidden c rfl with ⟨hmark, -⟩ | hall
      · exact absurd hactive (hfree c rfl hmark)
      · obtain ⟨hhead, hprevs⟩ := List.forall_mem_cons.mp hall
        exact List.forall_mem_cons.mpr ⟨hhead, hprevs⟩
  | @delete j c hj hne hfree =>
    rintro _ ⟨⟩
    rcases hhidden c rfl with ⟨hmark, -⟩ | hall
    · exact absurd hactive (hfree hmark)
    · obtain ⟨hhead, hprevs⟩ := List.forall_mem_cons.mp hall
      exact .inr (List.forall_mem_cons.mpr ⟨hhead, hprevs⟩)
  | @abort j _ hj hne =>
    intro c' hc'
    obtain ⟨c, rfl, hab⟩ := Option.bind_eq_some_iff.mp hc'
    exact (hhidden c rfl).abort h hget (hlinked c rfl) hj hne hab
  | trim c =>
    rintro _ ⟨⟩
    have hsub := (trimPrevs_initial m.minActive m.committedTxns c.prevs).subset
    rcases hhidden c rfl with ⟨hmark, hprevs⟩ | hall
    · exact .inl ⟨hmark, fun v hv => hprevs v (hsub hv)⟩
    · exact .inr fun v hv => hall v (List.cons_subset_cons _ hsub hv)

/-! ## Whole runs -/

theorem HiddenKey.congr {txn' : Transaction τ κ} {c? : Option (VersionChain δ)}
    (h : HiddenKey txn c?) (hid : txn'.txnId = txn.txnId) (hsn : txn'.snapshot = txn.snapshot) :
    HiddenKey txn' c? := by
  simp only [HiddenKey, Hidden, Foreign, hid, hsn] at h ⊢
  exact h

/-- The chain right after the transaction's own delete. -/
theorem MVCCManager.Effect.hiddenKey {call : Call τ κ δ} {reply : Reply δ}
    (he : Effect m call m' reply) (hcall : call = .delete txn.txnId t k)
    (hreply : reply = .bool true)
    (hbelow : ∀ c, m.chain? t k = some c →
      ∀ v ∈ c.prevs, ¬ v.isVisibleTo txn.txnId txn.snapshot = true) :
    HiddenKey txn (m'.chain? t k) := by
  cases he with
  | @delete writer c t' k' hgetw hactw hc hfree =>
    obtain ⟨hid, rfl, rfl⟩ := Call.delete.inj hcall
    rw [chain?_storeChain, if_pos ⟨rfl, rfl⟩]
    rintro _ ⟨⟩
    exact .inl ⟨hid, hbelow c hc⟩
  | refusedDelete => cases hreply
  | _ => cases hcall

/-- Active transactions see nothing of what they deleted last. -/
def HiddenOwn (tr : History τ κ δ) (m : MVCCManager τ κ δ) : Prop :=
  ∀ (w : ℕ) (txn : Transaction τ κ) (t : τ) (k : κ), At tr w (IsDelete txn.txnId t k) →
    (∀ e ∈ tr.drop (w + 1), ∀ d, ¬ IsWrite txn.txnId t k d e) →
    m.txns.get? txn.txnId = some txn → txn.state = .active → HiddenKey txn (m.chain? t k)

theorem IsUpdate.cases {i : ℕ} {e : Step τ κ δ} (h : IsUpdate i t k e) :
    (∃ d, IsWrite i t k d e) ∨ IsDelete i t k e := by
  obtain ⟨⟨d, hwrite⟩ | hdelete, hreply⟩ := h
  · exact .inl ⟨d, hwrite, hreply⟩
  · exact .inr ⟨hdelete, hreply⟩

theorem hiddenOwn_step (hr : (machine τ κ δ).Run tr m) (hhidden : HiddenOwn tr m)
    {call : Call τ κ δ} (hen : m.enabled call)
    (hall : DeletesAll ((machine τ κ δ).event m call)) :
    HiddenOwn (tr ++ [(machine τ κ δ).event m call]) (m.step call).1 := by
  intro w txn t k hw hno hget' hact'
  have hwf := wf_of_reachable ⟨_, hr⟩
  have heff := effect_of_enabled ⟨_, hr⟩ hen
  -- the transaction was active before: it has updated the key, or does so now
  have hknown : ∃ txn₀, m.txns.get? txn.txnId = some txn₀ := by
    rcases at_snoc.mp hw with ⟨e, he, hdelete⟩ | ⟨-, hdelete⟩
    · exact (recorded_of_run hr).updater e (List.mem_of_getElem? he) _ t k
        ⟨.inr hdelete.1, hdelete.2⟩
    · obtain ⟨txn₀, hget₀, -⟩ := hen txn.txnId (by rw [show call = _ from hdelete.1]; rfl)
      exact ⟨txn₀, hget₀⟩
  obtain ⟨txn₀, hget₀⟩ := hknown
  rcases heff.active_pred hget' hact' with ⟨old, hget, hact, hid, hsn⟩ | ⟨hid, -⟩
  swap
  · rw [hid, hwf.get?_next] at hget₀
    cases hget₀
  refine HiddenKey.congr ?_ hid.symm hsn.symm
  by_cases hdelete : IsDelete old.txnId t k ((machine τ κ δ).event m call)
  · exact heff.hiddenKey hdelete.1 hdelete.2 fun c hc => hall old t k c hdelete hget hc
  · rcases at_snoc.mp hw with hw | ⟨-, hdelete'⟩
    · have hlt := hw.lt
      rw [List.drop_append_of_le_length hlt] at hno
      have hold : HiddenKey old (m.chain? t k) := by
        refine hhidden w old t k (hw.mono fun e he => hid ▸ he) ?_ hget hact
        intro e he
        rw [hid]
        exact hno e (List.mem_append_left _ he)
      have hno' : ¬ IsUpdate old.txnId t k ((machine τ κ δ).event m call) := by
        intro hup
        rcases hup.cases with ⟨d, hwrite⟩ | hdel
        · exact hno _ (List.mem_append_right _ List.mem_cons_self) d (hid ▸ hwrite)
        · exact hdelete hdel
      have hstep := heff.chainStep hwf hget (hid ▸ ⟨txn, hget', hact'⟩) rfl rfl hno'
      exact hstep.hidden hwf.toTableWF hget hact (hwf.linked t k) hold
    · exact absurd (hid ▸ hdelete') hdelete

/-- In every run in which transactions delete only keys of which they see no version below the
head, they read None until they write the key again. -/
theorem ownDeletesHold_of_deletesAll (h : (machine τ κ δ).Run tr m)
    (hall : ∀ e ∈ tr, DeletesAll e) : OwnDeletesHold tr := by
  intro w p i t k e hw hp hwp hread hno
  obtain ⟨hr, hen, hev⟩ := h.event_at hp
  have hwf := wf_of_reachable ⟨_, hr⟩
  obtain ⟨txn, hget, hact⟩ := hen i (by rw [hread]; rfl)
  obtain rfl := (hwf.txnId i txn hget).1
  have hhidden : HiddenOwn (tr.take p) e.pre :=
    hr.invariant_of (fun e he => hall e (List.mem_of_mem_take he)) (by simp [HiddenOwn, At])
      fun _ _ _ hr hhidden hen hall => hiddenOwn_step hr hhidden hen hall
  have hkey := hhidden w txn t k ((at_take hwp).mpr hw) hno hget hact
  have hreply : e.reply = .data (view txn (e.pre.chain? t k)) := by
    rw [← step_read hget t k, ← hread]
    exact congrArg Event.reply hev
  rw [hreply]
  cases hc : e.pre.chain? t k with
  | none => rfl
  | some c => rw [(hkey c hc).view hwf.toTableWF hget]

/-- A transaction deletes what another has committed before it began. -/
def deletedCommitted : List (Call ℕ ℕ ℕ) :=
  [.begin .snapshot, .write 1 0 0 10, .commit 1, .begin .snapshot, .delete 2 0 0, .read 2 0 0]

theorem ownDeletesHold_deletedCommitted :
    OwnDeletesHold ((machine ℕ ℕ ℕ).trace init deletedCommitted) := by
  apply ownDeletesHold_of_deletesAll (Machine.run_of_legal (by decide))
  have hprevs : ∀ e ∈ (machine ℕ ℕ ℕ).trace init deletedCommitted,
      ∀ c ∈ e.pre.chain? 0 0, c.prevs = [] := by decide
  have hkeys : ∀ e ∈ (machine ℕ ℕ ℕ).trace init deletedCommitted,
      ∀ u ∈ e.input.updates?, u.2 = (0, 0) := by decide
  intro e he txn t k c hdelete _ hc v hv
  have hkey := hkeys e he (txn.txnId, t, k) (by rw [hdelete.1]; rfl)
  obtain ⟨rfl, rfl⟩ := Prod.mk.inj hkey
  rw [hprevs e he c hc] at hv
  cases hv

/-- A key is written and committed; a reader begins, another transaction overwrites the key and
commits, and the reader deletes it. -/
def deletedAbove : List (Call ℕ ℕ ℕ) :=
  [.begin .snapshot, .write 1 0 0 10, .commit 1, .begin .snapshot, .begin .snapshot,
    .write 3 0 0 20, .commit 3, .delete 2 0 0, .read 2 0 0]

theorem deletedAbove_not_hold :
    ¬ ∀ (tr : History ℕ ℕ ℕ) (m : MVCCManager ℕ ℕ ℕ), (machine ℕ ℕ ℕ).Run tr m →
      OwnDeletesHold tr := by
  intro h
  have hrun : (machine ℕ ℕ ℕ).Run ((machine ℕ ℕ ℕ).trace init deletedAbove)
      ((machine ℕ ℕ ℕ).exec init deletedAbove) := Machine.run_of_legal (by decide)
  have hdelete : At ((machine ℕ ℕ ℕ).trace init deletedAbove) 7 (IsDelete 2 0 0) :=
    ⟨_, rfl, rfl, by decide⟩
  have hbad := h _ _ hrun 7 8 2 0 0 _ hdelete rfl (by decide) rfl
    (by simp [IsWrite, deletedAbove, Machine.event])
  revert hbad
  decide

end PySQL.Mvcc
