import PySQL.Mvcc.SnapshotRead

/-!
# What garbage collection may drop

`garbage_collect` cuts a chain below a version superseded by a committed transaction older than
every active one.  Ids say who began first, not who committed first, so an active transaction may
still need what is below the cut.  A version is dead if no active transaction sees it and its stamps
hide it from every later one; a manager that has lost dead versions only replies to every call as
before.
-/

namespace PySQL.Mvcc

open Lib MVCCManager

set_option linter.unusedSectionVars false

variable {τ κ δ : Type*} [DecidableEq τ] [DecidableEq κ]
variable {m m' n : MVCCManager τ κ δ} {txn : Transaction τ κ}

namespace MVCCManager

/-- No transaction that is active, or that begins later, sees the version. -/
structure Dead (m : MVCCManager τ κ δ) (v : VersionRecord δ) : Prop where
  now : ∀ txn, m.txns.get? txn.txnId = some txn → txn.state = .active →
    ¬ v.isVisibleTo txn.txnId txn.snapshot = true
  later : v.xmin ∈ m.abortedTxns ∨ v.xmax ∈ m.committedTxns

/-- The versions that garbage collection cuts off a chain. -/
def dropped (m : MVCCManager τ κ δ) (c : VersionChain δ) : List (VersionRecord δ) :=
  c.prevs.drop (m.trimChain c).prevs.length

/-- Garbage collection here drops dead versions only. -/
def DropsOnlyDead (m : MVCCManager τ κ δ) : Prop :=
  ∀ t k c, m.chain? t k = some c → ∀ v ∈ m.dropped c, m.Dead v

end MVCCManager

def read? (e : Step τ κ δ) : Option (Call τ κ δ × Reply δ) :=
  match e.input with
  | .read _ _ _ => some (e.input, e.reply)
  | _ => none

/-- The calls of read_version in a history with what they returned. -/
def reads (tr : History τ κ δ) : List (Call τ κ δ × Reply δ) := tr.filterMap read?

theorem reads_cons (e : Step τ κ δ) (tr : History τ κ δ) :
    reads (e :: tr) = (read? e).toList ++ reads tr := by
  cases h : read? e <;> simp [reads, h]

/-- Whatever clients call next, they can call it and read the same after a garbage collection. -/
def GcInvisible (m : MVCCManager τ κ δ) : Prop :=
  ∀ calls, (machine τ κ δ).Legal m calls →
    (machine τ κ δ).Legal m.garbageCollect.1 calls ∧
      reads ((machine τ κ δ).trace m.garbageCollect.1 calls) =
        reads ((machine τ κ δ).trace m calls)

/-! ## Dead versions stay dead -/

/-- An active transaction was active before the step, or begins with it. -/
theorem MVCCManager.Effect.active_pred {call : Call τ κ δ} {reply : Reply δ}
    (he : Effect m call m' reply) (hget : m'.txns.get? txn.txnId = some txn)
    (hact : txn.state = .active) :
    (∃ old, m.txns.get? old.txnId = some old ∧ old.state = .active ∧ old.txnId = txn.txnId ∧
        old.snapshot = txn.snapshot) ∨
      txn.txnId = m.nextTxnId ∧ txn.snapshot.committed = some m.committedTxns := by
  have same : m.txns.get? txn.txnId = some txn →
      ∃ old, m.txns.get? old.txnId = some old ∧ old.state = .active ∧ old.txnId = txn.txnId ∧
        old.snapshot = txn.snapshot := fun hold => ⟨txn, hold, hact, rfl, rfl⟩
  cases he with
  | begin isolation =>
    rcases Dict.get?_set_cases hget with ⟨hid, heq⟩ | ⟨-, hget⟩
    · exact .inr ⟨hid.symm, by rw [← heq]⟩
    · exact .inl (same hget)
  | @write writer t k d hgetw hactw hfree =>
    rcases Dict.get?_set_cases hget with ⟨hid, rfl⟩ | ⟨-, hget⟩
    · exact .inl ⟨writer, hgetw, hactw, rfl, rfl⟩
    · exact .inl (same hget)
  | @delete writer c t k hgetw hactw hc hfree =>
    rcases Dict.get?_set_cases hget with ⟨hid, rfl⟩ | ⟨-, hget⟩
    · exact .inl ⟨writer, hgetw, hactw, rfl, rfl⟩
    · exact .inl (same hget)
  | @read reader v t k hgetr hactr hv =>
    rcases Dict.get?_set_cases hget with ⟨hid, rfl⟩ | ⟨-, hget⟩
    · exact .inl ⟨reader, hgetr, hactr, rfl, rfl⟩
    · exact .inl (same hget)
  | commit hgetw hactw =>
    rcases Dict.get?_set_cases hget with ⟨hid, rfl⟩ | ⟨-, hget⟩
    · cases hact
    · exact .inl (same hget)
  | abort hgetw hactw =>
    rcases Dict.get?_set_cases hget with ⟨hid, rfl⟩ | ⟨-, hget⟩
    · cases hact
    · exact .inl (same hget)
  | refusedWrite => exact .inl (same hget)
  | refusedDelete => exact .inl (same hget)
  | readNone => exact .inl (same hget)
  | garbageCollect => exact .inl (same hget)

theorem MVCCManager.Effect.committed_mono {call : Call τ κ δ} {reply : Reply δ} (he : Effect m call m' reply) :
    m.committedTxns ⊆ m'.committedTxns := by
  cases he with
  | commit => exact fun _ => List.mem_insert_of_mem
  | _ => exact List.Subset.refl _

theorem MVCCManager.Effect.aborted_mono {call : Call τ κ δ} {reply : Reply δ} (he : Effect m call m' reply) :
    m.abortedTxns ⊆ m'.abortedTxns := by
  cases he with
  | abort => exact fun _ => List.mem_insert_of_mem
  | _ => exact List.Subset.refl _

/-- Committed and aborted ids are ids handed out, and no id is both. -/
theorem MVCCManager.TableWF.aborted_not_committed (h : m.TableWF) {i : ℕ}
    (hi : i ∈ m.abortedTxns) : i ∉ m.committedTxns ∧ i < m.nextTxnId := by
  obtain ⟨txn, hget, hst⟩ := (h.aborted i).mp hi
  refine ⟨fun hc => ?_, (h.txnId i txn hget).2.2⟩
  obtain ⟨txn', hget', hst'⟩ := (h.committed i).mp hc
  rw [hget] at hget'
  cases hget'
  rw [hst] at hst'
  cases hst'

theorem MVCCManager.Dead.step (h : m.WF) {call : Call τ κ δ} {reply : Reply δ}
    (he : Effect m call m' reply) {v : VersionRecord δ} (hv : m.Dead v) : m'.Dead v where
  now txn hget hact := by
    rcases he.active_pred hget hact with ⟨old, hold, hactold, hid, hsn⟩ | ⟨hid, hcomm⟩
    · rw [← hid, ← hsn]
      exact hv.now old hold hactold
    · rw [isVisibleTo_iff (he.tableWF h.toTableWF) hget]
      simp only [TransactionSnapshot.isCommitted, hcomm, decide_eq_true_eq, hid]
      rintro ⟨hmin, -, hmax⟩
      rcases hv.later with hab | hco
      · have hno := h.aborted_not_committed hab
        rcases hmin with hmin | hmin
        · omega
        · exact hno.1 hmin
      · exact hmax hco
  later := hv.later.imp (fun hab => he.aborted_mono hab) fun hco => he.committed_mono hco

/-! ## Chains that have lost dead versions -/

/-- The second chain is the first without a dead tail, cut as garbage collection cuts. -/
inductive TrimmedChain (m : MVCCManager τ κ δ) :
    Option (VersionChain δ) → Option (VersionChain δ) → Prop where
  | absent : TrimmedChain m none none
  | whole (c) : TrimmedChain m (some c) (some c)
  | cut (head ps p tail) (hp : p.xmax ∈ m.committedTxns) (hdead : ∀ v ∈ tail, m.Dead v) :
      TrimmedChain m (some ⟨head, ps ++ p :: tail⟩) (some ⟨head, ps ++ [p]⟩)

structure Trimmed (m n : MVCCManager τ κ δ) : Prop where
  next : n.nextTxnId = m.nextTxnId
  txns : n.txns = m.txns
  active : n.activeTxns = m.activeTxns
  committed : n.committedTxns = m.committedTxns
  aborted : n.abortedTxns = m.abortedTxns
  chains : ∀ t k, TrimmedChain m (m.chain? t k) (n.chain? t k)

theorem TrimmedChain.mono {c? c?' : Option (VersionChain δ)} (h : TrimmedChain m c? c?')
    (hcomm : m.committedTxns ⊆ m'.committedTxns) (hdead : ∀ v, m.Dead v → m'.Dead v) :
    TrimmedChain m' c? c?' := by
  cases h with
  | absent => exact .absent
  | whole c => exact .whole c
  | cut head ps p tail hp hd => exact .cut head ps p tail (hcomm hp) fun v hv => hdead v (hd v hv)

/-- Both chains have the same head. -/
theorem TrimmedChain.head {c? c?' : Option (VersionChain δ)} (h : TrimmedChain m c? c?') :
    c?'.map VersionChain.head = c?.map VersionChain.head := by
  cases h <;> rfl

/-- Changing the head and pushing versions behind it touches no tail. -/
theorem TrimmedChain.push {c c' : VersionChain δ} (h : TrimmedChain m (some c) (some c'))
    (head : VersionRecord δ) (ps : List (VersionRecord δ)) :
    TrimmedChain m (some ⟨head, ps ++ c.prevs⟩) (some ⟨head, ps ++ c'.prevs⟩) := by
  cases h with
  | whole c => exact .whole _
  | cut head' ps' p tail hp hdead =>
    simpa only [List.append_assoc] using TrimmedChain.cut head (ps ++ ps') p tail hp hdead

theorem TrimmedChain.supersede {c? c?' : Option (VersionChain δ)} (h : TrimmedChain m c? c?')
    (i : ℕ) (d : δ) :
    TrimmedChain m (some ⟨{ data := d, xmin := i }, supersede i c?⟩)
      (some ⟨{ data := d, xmin := i }, supersede i c?'⟩) := by
  cases h with
  | absent => exact .whole _
  | whole c => exact .whole _
  | cut head ps p tail hp hdead =>
    exact .cut _ ({ head with xmax := i } :: ps) p tail hp hdead

/-- What a reader finds is not in the tail that is missing. -/
theorem TrimmedChain.visibleVersion {c? c?' : Option (VersionChain δ)} (h : TrimmedChain m c? c?')
    (hget : m.txns.get? txn.txnId = some txn) (hact : txn.state = .active) :
    c?'.bind (visibleVersion txn) = c?.bind (visibleVersion txn) := by
  cases h with
  | absent => rfl
  | whole c => rfl
  | cut head ps p tail hp hdead =>
    have hnone : tail.find? (·.isVisibleTo txn.txnId txn.snapshot) = none :=
      List.find?_eq_none.mpr fun v hv => (hdead v hv).now txn hget hact
    have hsplit : head :: (ps ++ p :: tail) = head :: (ps ++ [p]) ++ tail := by simp
    simp only [Option.bind_some, MVCCManager.visibleVersion]
    rw [hsplit, List.find?_append, hnone, Option.or_none]

/-- An abort pops no further than to the version above the cut: that one has a committed creator. -/
theorem TrimmedChain.abort (h : m.TableWF) {i : ℕ} (hi : i ∈ m.activeTxns)
    {c? c?' : Option (VersionChain δ)} (hl : ∀ c, c? = some c → Linked c)
    (ht : TrimmedChain m c? c?') :
    TrimmedChain m (c?.bind (abortChain i)) (c?'.bind (abortChain i)) := by
  cases ht with
  | absent => exact .absent
  | whole c => cases hab : abortChain i c <;> simp only [Option.bind_some, hab] <;> constructor
  | cut head ps p tail hp hdead =>
    simp only [Option.bind_some, abortChain]
    split
    · next hmin =>
      cases ps with
      | nil =>
        have hlink := (List.isChain_cons_cons.mp (hl _ rfl)).1
        rw [hlink, hmin] at hp
        exact absurd hi (h.mem_committed hp).2.2
      | cons r rs => exact .cut _ rs p tail hp hdead
    · split
      · exact .cut _ ps p tail hp hdead
      · exact .cut _ ps p tail hp hdead

/-- Where garbage collection cuts. -/
theorem trimPrevs_cut (minActive : ℕ) (committed : List ℕ) (vs : List (VersionRecord δ)) :
    (trimPrevs minActive committed vs).1 = vs ∨ ∃ ps p tail, vs = ps ++ p :: tail ∧
      (trimPrevs minActive committed vs).1 = ps ++ [p] ∧ p.xmax ∈ committed := by
  fun_induction trimPrevs minActive committed vs with
  | case1 prev next rest hcut => exact .inr ⟨[], prev, next :: rest, rfl, rfl, hcut.2.2⟩
  | case2 prev next rest hcut trimmed ih =>
    rcases ih with heq | ⟨ps, p, tail, hvs, htrim, hp⟩
    · exact .inl (congrArg (prev :: ·) heq)
    · exact .inr ⟨prev :: ps, p, tail, congrArg (prev :: ·) hvs, congrArg (prev :: ·) htrim, hp⟩
  | case3 vs hne => exact .inl rfl

/-- Garbage collection of a chain cuts above a tail that it already lacks, or inside that tail. -/
theorem trimPrevs_append (minActive : ℕ) (committed : List ℕ) (ps tail : List (VersionRecord δ)) :
    ∃ rest, rest <+: tail ∧
      (trimPrevs minActive committed (ps ++ tail)).1 =
        (trimPrevs minActive committed ps).1 ++ rest ∧
      (rest ≠ [] → (trimPrevs minActive committed ps).1 = ps) := by
  induction ps with
  | nil => exact ⟨_, trimPrevs_initial _ _ tail, rfl, fun _ => rfl⟩
  | cons p ps ih =>
    obtain ⟨rest, hpre, heq, hkeep⟩ := ih
    cases ps with
    | nil =>
      cases tail with
      | nil => exact ⟨[], List.nil_prefix, by simp, by simp⟩
      | cons v vs =>
        simp only [List.cons_append, List.nil_append, trimPrevs]
        split
        · exact ⟨[], List.nil_prefix, by simp, by simp⟩
        · exact ⟨_, trimPrevs_initial _ _ _, rfl, by simp⟩
    | cons r rs =>
      rw [List.cons_append] at heq
      simp only [List.cons_append, trimPrevs]
      split
      · exact ⟨[], List.nil_prefix, by simp, by simp⟩
      · exact ⟨rest, hpre, congrArg (p :: ·) heq, fun hr => congrArg (p :: ·) (hkeep hr)⟩

theorem TrimmedChain.trim {c? c?' : Option (VersionChain δ)} (ht : TrimmedChain m c? c?') :
    TrimmedChain m (c?.map m.trimChain) (c?'.map m.trimChain) := by
  cases ht with
  | absent => exact .absent
  | whole c => exact .whole _
  | cut head ps p tail hp hdead =>
    have hsplit : ps ++ p :: tail = ps ++ [p] ++ tail := by simp
    obtain ⟨rest, hpre, heq, hkeep⟩ :=
      trimPrevs_append m.minActive m.committedTxns (ps ++ [p]) tail
    simp only [Option.map_some, trimChain, hsplit, heq]
    cases rest with
    | nil => simpa using TrimmedChain.whole _
    | cons v vs =>
      rw [hkeep (List.cons_ne_nil v vs), List.append_assoc]
      exact .cut head ps p (v :: vs) hp fun w hw => hdead w (hpre.subset hw)

theorem trimmed_garbageCollect (hdrop : m.DropsOnlyDead) : Trimmed m m.garbageCollect.1 where
  next := rfl
  txns := rfl
  active := rfl
  committed := rfl
  aborted := rfl
  chains t k := by
    rw [chain?_garbageCollect]
    cases hc : m.chain? t k with
    | none => exact .absent
    | some c =>
      have hd := hdrop t k c hc
      obtain ⟨head, prevs⟩ := c
      simp only [dropped, trimChain, Option.map_some] at hd ⊢
      rcases trimPrevs_cut m.minActive m.committedTxns prevs with heq | ⟨ps, p, tail, rfl, htrim, hp⟩
      · rw [heq]
        exact .whole _
      · rw [htrim] at hd ⊢
        exact .cut head ps p tail hp (by simpa using hd)

/-! ## The manager that lost dead versions replies as before -/

/-- Storing corresponding chains in both. -/
theorem Trimmed.store (h : Trimmed m n) {t : τ} {k : κ} {c c' : VersionChain δ}
    (hdead : ∀ v, m.Dead v → (m.storeChain txn t k c).Dead v)
    (hc : TrimmedChain m (some c) (some c')) :
    Trimmed (m.storeChain txn t k c) (n.storeChain txn t k c') where
  next := h.next
  txns := by simp [storeChain, h.txns]
  active := h.active
  committed := h.committed
  aborted := h.aborted
  chains t' k' := by
    rw [chain?_storeChain, chain?_storeChain]
    split
    · exact hc.mono (List.Subset.refl _) hdead
    · exact (h.chains t' k').mono (List.Subset.refl _) hdead

/-- Replacing the tables in both by the same ones. -/
theorem Trimmed.retouch (h : Trimmed m n) {m₁ n₁ : MVCCManager τ κ δ}
    (hdead : ∀ v, m.Dead v → m₁.Dead v) (hcomm : m.committedTxns ⊆ m₁.committedTxns)
    (hm : m₁.versions = m.versions)
    (hn : n₁ = { m₁ with versions := n.versions }) : Trimmed m₁ n₁ := by
  subst hn
  refine ⟨rfl, rfl, rfl, rfl, rfl, fun t k => ?_⟩
  have hchain : m₁.chain? t k = m.chain? t k := by simp only [chain?, hm]
  rw [hchain]
  exact (h.chains t k).mono hcomm hdead

theorem Trimmed.writeConflict (h : Trimmed m n) (txn : Transaction τ κ) (v : VersionRecord δ) :
    n.writeConflict txn v = m.writeConflict txn v := by
  simp only [MVCCManager.writeConflict, h.active]

/-- One call on both managers. -/
theorem Trimmed.step (hwf : m.WF) (h : Trimmed m n) {call : Call τ κ δ} (hen : m.enabled call) :
    Trimmed (m.step call).1 (n.step call).1 ∧
      (call ≠ .garbageCollect → (n.step call).2 = (m.step call).2) := by
  have he := step_effect hwf hen
  have hdead := fun v (hv : m.Dead v) => hv.step hwf he
  have htxn : ∀ i, n.txns.get? i = m.txns.get? i := fun i => by rw [h.txns]
  generalize (m.step call).1 = m', (m.step call).2 = reply at he hdead ⊢
  cases he with
  | begin isolation =>
    refine ⟨h.retouch hdead (List.Subset.refl _) rfl ?_, fun _ => ?_⟩
    · simp [MVCCManager.step, beginTransaction, h.next, h.txns, h.active, h.committed, h.aborted]
    · simp [MVCCManager.step, beginTransaction, h.next]
  | @write txn t k d hget hact hfree =>
    have hstep : n.step (.write txn.txnId t k d) = (n.storeChain txn t k
        ⟨{ data := d, xmin := txn.txnId }, supersede txn.txnId (n.chain? t k)⟩, .bool true) := by
      have hhead := (h.chains t k).head
      simp only [MVCCManager.step, htxn, hget, writeVersion]
      cases hc' : n.chain? t k with
      | none => rfl
      | some c' =>
        cases hc : m.chain? t k with
        | none => simp [hc, hc'] at hhead
        | some c =>
          rw [hc, hc', Option.map_some, Option.map_some, Option.some.injEq] at hhead
          simp [h.writeConflict, hhead, hfree c hc, supersede]
    rw [hstep]
    exact ⟨h.store hdead (((h.chains t k).supersede _ d).mono (List.Subset.refl _) fun _ => id),
      fun _ => rfl⟩
  | @delete txn c t k hget hact hc hfree =>
    have ht := h.chains t k
    have hhead := ht.head
    rw [hc] at ht hhead
    cases hc' : n.chain? t k with
    | none => simp [hc'] at hhead
    | some c' =>
      rw [hc', Option.map_some, Option.map_some, Option.some.injEq] at hhead
      have hstep : n.step (.delete txn.txnId t k) = (n.storeChain txn t k
          { c' with head := { c'.head with xmax := txn.txnId } }, .bool true) := by
        simp [MVCCManager.step, htxn, hget, deleteVersion, hc', h.writeConflict, hhead, hfree]
      rw [hstep, hhead]
      rw [hc'] at ht
      exact ⟨h.store hdead (ht.push _ []), fun _ => rfl⟩
  | @refusedWrite txn old t k d hget hc hconf =>
    have hhead := (h.chains t k).head
    rw [hc] at hhead
    cases hc' : n.chain? t k with
    | none => simp [hc'] at hhead
    | some c' =>
      rw [hc', Option.map_some, Option.map_some, Option.some.injEq] at hhead
      have hstep : n.step (.write txn.txnId t k d) = (n, .bool false) := by
        simp [MVCCManager.step, htxn, hget, writeVersion, hc', h.writeConflict, hhead, hconf]
      rw [hstep]
      exact ⟨h, fun _ => rfl⟩
  | @refusedDelete txn t k hget hconf =>
    have hhead := (h.chains t k).head
    have hstep : n.step (.delete txn.txnId t k) = (n, .bool false) := by
      simp only [MVCCManager.step, htxn, hget, deleteVersion]
      cases hc' : n.chain? t k with
      | none => rfl
      | some c' =>
        cases hc : m.chain? t k with
        | none => simp [hc, hc'] at hhead
        | some c =>
          rw [hc, hc', Option.map_some, Option.map_some, Option.some.injEq] at hhead
          simp [h.writeConflict, hhead, hconf c hc]
    rw [hstep]
    exact ⟨h, fun _ => rfl⟩
  | @read txn v t k hget hact hv =>
    have hv' := ((h.chains t k).visibleVersion hget hact).trans hv
    have hstep : n.step (.read txn.txnId t k) =
        ({ n with txns := n.txns.set txn.txnId (txn.addRead t k) }, .data (some v.data)) := by
      simp [MVCCManager.step, htxn, hget, readVersion, hv']
    rw [hstep]
    refine ⟨h.retouch hdead (List.Subset.refl _) rfl ?_, fun _ => rfl⟩
    simp [h.next, h.txns, h.active, h.committed, h.aborted]
  | @readNone txn t k hget hv =>
    obtain ⟨txn', hget', hact⟩ := hen _ rfl
    obtain rfl : txn' = txn := Option.some.inj (hget'.symm.trans hget)
    have hv' := ((h.chains t k).visibleVersion hget hact).trans hv
    have hstep : n.step (.read txn'.txnId t k) = (n, .data none) := by
      simp [MVCCManager.step, htxn, hget, readVersion, hv']
    rw [hstep]
    exact ⟨h, fun _ => rfl⟩
  | @commit txn hget hact =>
    have hconf : n.activeTxns.any (n.commitConflict txn) = false := by
      have heq : n.commitConflict txn = m.commitConflict txn := by
        funext i
        simp only [commitConflict, htxn]
      rw [h.active, heq, hwf.not_conflict]
    have hstep : n.step (.commit txn.txnId) = (n.commit txn, .bool true) := by
      simp [MVCCManager.step, htxn, hget, commitTransaction, hact, hconf, MVCCManager.commit]
    rw [hstep]
    refine ⟨h.retouch hdead (fun _ => List.mem_insert_of_mem) rfl ?_, fun _ => rfl⟩
    simp [MVCCManager.commit, h.next, h.txns, h.active, h.committed, h.aborted]
  | @abort txn hget hact =>
    have hstep : n.step (.abort txn.txnId) = (n.doAbort txn, .unit) := by
      simp [MVCCManager.step, htxn, hget, abortTransaction]
    have hi := (hwf.active _).mpr ⟨txn, hget, hact⟩
    rw [hstep]
    refine ⟨⟨h.next, ?_, ?_, h.committed, ?_, fun t k => ?_⟩, fun _ => rfl⟩
    · simp [doAbort, h.txns]
    · simp [doAbort, h.active]
    · simp [doAbort, h.aborted]
    · rw [chain?_doAbort, chain?_doAbort]
      exact ((h.chains t k).abort hwf.toTableWF hi (hwf.linked t k)).mono
        (List.Subset.refl _) hdead
  | garbageCollect =>
    refine ⟨⟨h.next, h.txns, h.active, h.committed, h.aborted, fun t k => ?_⟩,
      fun hne => absurd rfl hne⟩
    have htrim : n.trimChain = m.trimChain := by
      funext c
      simp only [trimChain, minActive, h.active, h.next, h.committed]
    change TrimmedChain _ _ (n.garbageCollect.1.chain? t k)
    rw [chain?_garbageCollect, chain?_garbageCollect, htrim]
    exact (h.chains t k).trim.mono (List.Subset.refl _) hdead

theorem read?_event {call : Call τ κ δ}
    (h : call ≠ .garbageCollect → (n.step call).2 = (m.step call).2) :
    read? ((machine τ κ δ).event n call) = read? ((machine τ κ δ).event m call) := by
  cases call with
  | read i t k =>
    change some (_, (n.step (.read i t k)).2) = some (_, (m.step (.read i t k)).2)
    rw [h (by simp)]
    rfl
  | _ => rfl

theorem Trimmed.run (hwf : m.WF) (h : Trimmed m n) {calls : List (Call τ κ δ)}
    (hl : (machine τ κ δ).Legal m calls) : (machine τ κ δ).Legal n calls ∧
      reads ((machine τ κ δ).trace n calls) = reads ((machine τ κ δ).trace m calls) := by
  induction calls generalizing m n with
  | nil => exact ⟨trivial, rfl⟩
  | cons call calls ih =>
    obtain ⟨hstep, hreply⟩ := h.step hwf hl.1
    obtain ⟨hlegal, hreads⟩ := ih ((step_effect hwf hl.1).wf hwf) hstep hl.2
    refine ⟨⟨?_, hlegal⟩, ?_⟩
    · have hen : m.enabled call := hl.1
      change n.enabled call
      simpa only [enabled, IsActive, h.txns] using hen
    · rw [Machine.trace_cons, Machine.trace_cons, reads_cons, reads_cons, read?_event hreply]
      exact congrArg _ hreads

/-- Where garbage collection drops only versions that no active or later transaction can see, it
changes no result of read_version in any continuation. -/
theorem gcInvisible_of_dropsOnlyDead (h : (machine τ κ δ).Reachable m) (hdrop : m.DropsOnlyDead) :
    GcInvisible m :=
  fun _ hl => (trimmed_garbageCollect hdrop).run (wf_of_reachable h) hl

/-- Three versions committed one after the other, and a reader that began after the last. -/
def committedThrice : List (Call ℕ ℕ ℕ) :=
  [.begin .snapshot, .write 1 0 0 10, .commit 1, .begin .snapshot, .write 2 0 0 20, .commit 2,
    .begin .snapshot, .write 3 0 0 30, .commit 3, .begin .snapshot]

theorem gcInvisible_committedThrice :
    GcInvisible ((machine ℕ ℕ ℕ).exec init committedThrice) :=
  have hdead : ∀ p ∈ ((machine ℕ ℕ ℕ).exec init committedThrice).versions.items, ∀ q ∈ p.2.items,
      ∀ v ∈ ((machine ℕ ℕ ℕ).exec init committedThrice).dropped q.2,
        (∀ r ∈ ((machine ℕ ℕ ℕ).exec init committedThrice).txns.items, r.2.state = .active →
          ¬ v.isVisibleTo r.2.txnId r.2.snapshot = true) ∧
        v.xmax ∈ ((machine ℕ ℕ ℕ).exec init committedThrice).committedTxns := by decide
  gcInvisible_of_dropsOnlyDead (Machine.reachable_of_legal (by decide)) fun t k c hc v hv => by
    obtain ⟨d, hd, hk⟩ := Option.bind_eq_some_iff.mp hc
    obtain ⟨hnow, hlater⟩ := hdead _ (Dict.mem_items_of_get? hd) _ (Dict.mem_items_of_get? hk) v hv
    exact ⟨fun txn hget hact => hnow _ (Dict.mem_items_of_get? hget) hact, .inr hlater⟩

/-- A transaction that began first supersedes a version twice, and commits while a reader that
began after it still needs that version. -/
def supersededTwice : List (Call ℕ ℕ ℕ) :=
  [.begin .snapshot, .write 1 0 0 10, .commit 1, .begin .snapshot, .begin .snapshot,
    .write 2 0 0 20, .write 2 0 0 30, .commit 2]

theorem supersededTwice_not_gcInvisible :
    ¬ ∀ m : MVCCManager ℕ ℕ ℕ, (machine ℕ ℕ ℕ).Reachable m → GcInvisible m := by
  intro h
  have hbad := (h ((machine ℕ ℕ ℕ).exec init supersededTwice)
    (Machine.reachable_of_legal (by decide)) [.read 3 0 0] (by decide)).2
  revert hbad
  decide

end PySQL.Mvcc
