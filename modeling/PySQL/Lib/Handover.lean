import PySQL.Lib.Origin
import PySQL.Lib.Quorum

/-!
# Logs handed on from term to term

Every term has one log, which grows by entries of that term only.  A piece of a log may get lost in
a later term whose log lacks it.  If every term starts from a log that has kept what some quorum
held before, then what a quorum holds is never lost.
-/

namespace Lib

set_option linter.unusedSectionVars false

variable {α ν : Type*} {origin : α → ℕ}

/-- The logs `own'` are the logs `own` some time later. -/
structure Grows (origin : α → ℕ) (own own' : ℕ → List α) : Prop where
  ext : ∀ t, own t <+: own' t
  fresh : ∀ t, own t ≠ [] → ∀ (k : ℕ) (x : α), (own' t)[k]? = some x →
    (own t)[k]? = some x ∨ origin x = t

/-- `p`, a piece of the log of term `t`, begins `log`, or a term after `t`, up to `hi`, lacks it. -/
def Kept (own : ℕ → List α) (p : List α) (t hi : ℕ) (log : List α) : Prop :=
  p <+: log ∨ ∃ u, t < u ∧ u ≤ hi ∧ own u ≠ [] ∧ ¬ p <+: own u

variable {own own' : ℕ → List α} {p log log' : List α} {t u hi hi' : ℕ}

theorem Grows.refl (own : ℕ → List α) : Grows origin own own where
  ext _ := List.prefix_rfl
  fresh _ _ _ _ hx := .inl hx

/-- A piece of an earlier term that a log lacks is not made up for by what is appended to it. -/
theorem Grows.lacks (h : Grows origin own own') (hp : ∀ x ∈ p, origin x < u) (hne : own u ≠ [])
    (hlack : ¬ p <+: own u) : ¬ p <+: own' u := by
  intro hpre
  apply hlack
  rw [List.prefix_iff_getElem?] at hpre ⊢
  intro k hk
  have hx := hpre k hk
  -- an entry that was appended later would be of term `u`
  exact (h.fresh u hne k _ hx).resolve_right (hp _ (List.getElem_mem hk)).ne

theorem Grows.take_eq (h : Grows origin own own') {n : ℕ} (hn : n ≤ (own t).length) :
    (own' t).take n = (own t).take n := by
  obtain ⟨rest, hrest⟩ := h.ext t
  rw [← hrest, List.take_append_of_le_length hn]

/-- A piece that fits into the log of before is a piece of it. -/
theorem Grows.isPrefix (h : Grows origin own own') (hp : p <+: own' t)
    (hlen : p.length ≤ (own t).length) : p <+: own t :=
  List.prefix_of_prefix_length_le hp (h.ext t) hlen

theorem Kept.grows (h : Kept own p t hi log) (hg : Grows origin own own')
    (hp : ∀ x ∈ p, origin x ≤ t) (hhi : hi ≤ hi') : Kept own' p t hi' log := by
  refine h.imp_right fun ⟨u, htu, hu, hne, hlack⟩ => ⟨u, htu, hu.trans hhi, ?_, ?_⟩
  · intro hnil
    have hpre := hg.ext u
    rw [hnil] at hpre
    exact hne (List.prefix_nil.mp hpre)
  · exact hg.lacks (fun x hx => (hp x hx).trans_lt htu) hne hlack

theorem Kept.extend (h : Kept own p t hi log) (hlog : log <+: log') : Kept own p t hi log' :=
  h.imp_left fun hp => hp.trans hlog

/-- A term without a log lacks nothing. -/
theorem Kept.pred (h : Kept own p t u log) (hnil : own u = []) : Kept own p t (u - 1) log := by
  refine h.imp_right fun ⟨w, htw, hw, hne, hlack⟩ => ⟨w, htw, ?_, hne, hlack⟩
  have hwu : w ≠ u := fun heq => hne (heq ▸ hnil)
  omega

/-- Nothing of its own term is lost. -/
theorem Kept.of_le (h : Kept own p t hi log) (hhi : hi ≤ t) : p <+: log := by
  refine h.resolve_right ?_
  rintro ⟨u, htu, hu, -⟩
  omega

/-- The entries of a backed log are not of later terms than its last one. -/
theorem Backed.origin_le (h : Backed origin own log) (hdated : ∀ t, ∀ x ∈ own t, origin x ≤ t)
    {last : α} (hlast : log.getLast? = some last) {x : α} (hx : x ∈ log) :
    origin x ≤ origin last := by
  obtain ⟨k, hk⟩ := List.mem_iff_getElem?.mp hx
  rw [List.getLast?_eq_getElem?] at hlast
  have hpre := h _ _ hlast
  rw [List.take_of_length_le (by omega)] at hpre
  exact hdated _ x (hpre.subset hx)

/-- A log that is at least as up to date as one that has kept a piece, by the origin and place of
its last entry, has kept it too. -/
theorem Kept.upToDate (h : Kept own p t hi log) (hback : Backed origin own log)
    (hdated : ∀ t, ∀ x ∈ own t, origin x ≤ t) (hp : p <+: own t) (ht : ∃ x ∈ p, origin x = t)
    {last y : α} (hlast : log.getLast? = some last) {k : ℕ} (hy : (own (origin y))[k]? = some y)
    (hup : origin last < origin y ∨ origin y = origin last ∧ log.length ≤ k + 1)
    (hhi : hi ≤ u) (hu : origin y ≤ u) : Kept own p t u ((own (origin y)).take (k + 1)) := by
  rcases h with hlog | ⟨w, htw, hw, hrest⟩
  · rcases hup with hlt | ⟨heq, hlen⟩
    · obtain ⟨x, hx, hxt⟩ := ht
      have hle := hback.origin_le hdated hlast (hlog.subset hx)
      have hne : own (origin y) ≠ [] := fun hnil => by simp [hnil] at hy
      by_cases hkeep : p <+: own (origin y)
      · refine .inl (isPrefix_take hkeep ?_)
        -- `y` is of a later term than all entries of `p`, so `p` ends before it
        by_contra hlong
        have hyp : p[k]? = some y := by
          obtain ⟨rest, hrest⟩ := hkeep
          rwa [← hrest, List.getElem?_append_left (by omega)] at hy
        have hyt := hdated t y (hp.subset (List.mem_of_getElem? hyp))
        omega
      · exact .inr ⟨origin y, by omega, hu, hne, hkeep⟩
    · -- both logs end with an entry of one term
      rw [List.getLast?_eq_getElem?] at hlast
      have hpre := hback _ _ hlast
      rw [List.take_of_length_le (by omega), ← heq] at hpre
      exact .inl (hlog.trans (isPrefix_take hpre hlen))
  · exact .inr ⟨w, htw, hw.trans hhi, hrest⟩

/-- What a quorum holds of the log of a term is in the log of every later term. -/
theorem handed_on [DecidableEq ν] {members q : List ν} (hq : IsQuorum members q)
    (hheir : ∀ u, t < u → own u ≠ [] → ∃ q', IsQuorum members q' ∧
      ∀ v ∈ q', v ∈ q → Kept own p t (u - 1) (own u)) (htu : t < u) (hne : own u ≠ []) :
    p <+: own u := by
  induction u using Nat.strong_induction_on with
  | _ u ih =>
    obtain ⟨q', hq', hall⟩ := hheir u htu hne
    obtain ⟨v, hv, hv'⟩ := hq.inter hq'
    refine (hall v hv' hv).resolve_right ?_
    rintro ⟨w, htw, hw, hnew, hlack⟩
    exact hlack (ih w (by omega) htw hnew)

end Lib
