import Mathlib.Tactic

/-!
# Runs of a deterministic machine

A machine reads one input at a time, under a guard that says which inputs its environment may
offer.  A run is recorded with everything a history property can ask about: for each step the
state it was taken in, the input, and the reply.
-/

namespace Lib

structure Machine (σ ι ρ : Type*) where
  init : σ
  enabled : σ → ι → Prop
  step : σ → ι → σ × ρ

/-- One step of a run: the state before it, the input and the reply. -/
structure Event (σ ι ρ : Type*) where
  pre : σ
  input : ι
  reply : ρ

/-- Entry `n` of a history exists and satisfies `P`. -/
def At {α : Type*} (tr : List α) (n : ℕ) (P : α → Prop) : Prop := ∃ e, tr[n]? = some e ∧ P e

section At

variable {α : Type*} {tr : List α} {n : ℕ} {P Q : α → Prop}

theorem At.lt (h : At tr n P) : n < tr.length := by
  obtain ⟨e, he, -⟩ := h
  exact (List.getElem?_eq_some_iff.mp he).1

theorem At.mono (h : At tr n P) (hPQ : ∀ e, P e → Q e) : At tr n Q := by
  obtain ⟨e, he, hp⟩ := h
  exact ⟨e, he, hPQ e hp⟩

/-- Two facts about one entry. -/
theorem At.and (hp : At tr n P) (hq : At tr n Q) : ∃ e, tr[n]? = some e ∧ P e ∧ Q e := by
  obtain ⟨e, he, hpe⟩ := hp
  obtain ⟨e', he', hqe⟩ := hq
  rw [he] at he'
  cases he'
  exact ⟨e, he, hpe, hqe⟩

theorem at_snoc {e : α} : At (tr ++ [e]) n P ↔ At tr n P ∨ n = tr.length ∧ P e := by
  constructor
  · rintro ⟨x, hx, hp⟩
    rcases Nat.lt_or_ge n tr.length with hlt | hge
    · rw [List.getElem?_append_left hlt] at hx
      exact .inl ⟨x, hx, hp⟩
    · rw [List.getElem?_append_right hge, List.getElem?_singleton] at hx
      split at hx
      · next hz =>
        cases hx
        exact .inr ⟨by omega, hp⟩
      · cases hx
  · rintro (h | ⟨rfl, hp⟩)
    · obtain ⟨x, hx, hp⟩ := h
      have hlt := (List.getElem?_eq_some_iff.mp hx).1
      exact ⟨x, by rwa [List.getElem?_append_left hlt], hp⟩
    · exact ⟨e, by simp, hp⟩

theorem at_take {p : ℕ} (h : n < p) : At (tr.take p) n P ↔ At tr n P := by
  simp only [At, List.getElem?_take_of_lt h]

theorem exists_at_iff : (∃ n, At tr n P) ↔ ∃ e ∈ tr, P e := by
  constructor
  · rintro ⟨n, e, he, hp⟩
    exact ⟨e, List.mem_of_getElem? he, hp⟩
  · rintro ⟨e, he, hp⟩
    obtain ⟨n, hn⟩ := List.mem_iff_getElem?.mp he
    exact ⟨n, e, hn, hp⟩

end At

namespace Machine

variable {σ ι ρ : Type*} (M : Machine σ ι ρ)

/-- The step that `i` makes from `s`, as it is recorded. -/
def event (s : σ) (i : ι) : Event σ ι ρ := ⟨s, i, (M.step s i).2⟩

/-- The state after a recorded step. -/
def post (e : Event σ ι ρ) : σ := (M.step e.pre e.input).1

/-- `M.Run tr s`: the steps `tr`, oldest first, lead from the initial state to `s`. -/
inductive Run : List (Event σ ι ρ) → σ → Prop where
  | nil : Run [] M.init
  | snoc {tr s} (i : ι) : Run tr s → M.enabled s i → Run (tr ++ [M.event s i]) (M.step s i).1

def Reachable (s : σ) : Prop := ∃ tr, M.Run tr s

def exec (s : σ) : List ι → σ
  | [] => s
  | i :: is => exec (M.step s i).1 is

def trace (s : σ) : List ι → List (Event σ ι ρ)
  | [] => []
  | i :: is => M.event s i :: trace (M.step s i).1 is

/-- Every input is enabled when its turn comes. -/
def Legal (s : σ) : List ι → Prop
  | [] => True
  | i :: is => M.enabled s i ∧ Legal (M.step s i).1 is

instance legalDecidable [∀ s i, Decidable (M.enabled s i)] (s : σ) (is : List ι) :
    Decidable (M.Legal s is) :=
  match is with
  | [] => inferInstanceAs (Decidable True)
  | i :: is => @instDecidableAnd _ _ _ (legalDecidable (M.step s i).1 is)

variable {M}

@[simp] theorem exec_nil (s : σ) : M.exec s [] = s := rfl

@[simp] theorem exec_cons (s : σ) (i : ι) (is : List ι) :
    M.exec s (i :: is) = M.exec (M.step s i).1 is := rfl

@[simp] theorem trace_nil (s : σ) : M.trace s [] = [] := rfl

@[simp] theorem trace_cons (s : σ) (i : ι) (is : List ι) :
    M.trace s (i :: is) = M.event s i :: M.trace (M.step s i).1 is := rfl

@[simp] theorem legal_nil (s : σ) : M.Legal s [] := trivial

@[simp] theorem legal_cons (s : σ) (i : ι) (is : List ι) :
    M.Legal s (i :: is) ↔ M.enabled s i ∧ M.Legal (M.step s i).1 is := Iff.rfl

theorem exec_append (s : σ) (is js : List ι) : M.exec s (is ++ js) = M.exec (M.exec s is) js := by
  induction is generalizing s with
  | nil => rfl
  | cons i is ih => exact ih (M.step s i).1

theorem Run.extend {tr : List (Event σ ι ρ)} {s : σ} (h : M.Run tr s) {is : List ι}
    (hl : M.Legal s is) : M.Run (tr ++ M.trace s is) (M.exec s is) := by
  induction is generalizing tr s with
  | nil => simpa using h
  | cons i is ih =>
    have hnext := ih (h.snoc i hl.1) hl.2
    simpa only [trace_cons, exec_cons, List.append_assoc, List.singleton_append] using hnext

/-- A legal input list makes a run. -/
theorem run_of_legal {is : List ι} (h : M.Legal M.init is) :
    M.Run (M.trace M.init is) (M.exec M.init is) := by
  simpa only [List.nil_append] using Run.nil.extend h

theorem reachable_of_legal {is : List ι} (h : M.Legal M.init is) :
    M.Reachable (M.exec M.init is) := ⟨_, run_of_legal h⟩

theorem Reachable.init : M.Reachable M.init := ⟨[], Run.nil⟩

theorem Reachable.step {s : σ} (h : M.Reachable s) {i : ι} (hi : M.enabled s i) :
    M.Reachable (M.step s i).1 := by
  obtain ⟨tr, htr⟩ := h
  exact ⟨_, htr.snoc i hi⟩

/-- The invariant rule. -/
theorem Reachable.invariant {I : σ → Prop} {s : σ} (h : M.Reachable s) (h0 : I M.init)
    (hs : ∀ s i, M.Reachable s → I s → M.enabled s i → I (M.step s i).1) : I s := by
  obtain ⟨tr, htr⟩ := h
  induction htr with
  | nil => exact h0
  | snoc i hr hi ih => exact hs _ i ⟨_, hr⟩ ih hi

/-- The invariant rule for runs whose steps all meet a condition. -/
theorem Run.invariant_of {I : List (Event σ ι ρ) → σ → Prop} {P : Event σ ι ρ → Prop}
    {tr : List (Event σ ι ρ)} {s : σ} (h : M.Run tr s) (hP : ∀ e ∈ tr, P e) (h0 : I [] M.init)
    (hs : ∀ tr s i, M.Run tr s → I tr s → M.enabled s i → P (M.event s i) →
      I (tr ++ [M.event s i]) (M.step s i).1) : I tr s := by
  induction h with
  | nil => exact h0
  | snoc i hr hi ih =>
    have hprev := ih fun e he => hP e (List.mem_append_left _ he)
    exact hs _ _ i hr hprev hi (hP _ (by simp))

/-- A run under a stricter guard is a run. -/
theorem Run.weaken {enabled : σ → ι → Prop} {tr : List (Event σ ι ρ)} {s : σ} (h : M.Run tr s)
    (hen : ∀ s i, M.enabled s i → enabled s i) :
    Machine.Run ⟨M.init, enabled, M.step⟩ tr s := by
  induction h with
  | nil => exact Run.nil
  | snoc i hr hi ih => exact ih.snoc i (hen _ i hi)

/-- The history form of the invariant rule. -/
theorem Run.invariant {I : List (Event σ ι ρ) → σ → Prop}
    {tr : List (Event σ ι ρ)} {s : σ} (h : M.Run tr s) (h0 : I [] M.init)
    (hs : ∀ tr s i, M.Run tr s → I tr s → M.enabled s i →
      I (tr ++ [M.event s i]) (M.step s i).1) : I tr s :=
  h.invariant_of (P := fun _ => True) (fun _ _ => trivial) h0
    fun tr s i hr hI hi _ => hs tr s i hr hI hi

/-- Cutting a run before one of its steps: the step is taken in the state its prefix reaches. -/
theorem Run.split {tr : List (Event σ ι ρ)} {s : σ} (h : M.Run tr s) {l r : List (Event σ ι ρ)}
    {e : Event σ ι ρ} (htr : tr = l ++ e :: r) :
    M.Run l e.pre ∧ M.enabled e.pre e.input ∧ e = M.event e.pre e.input := by
  induction h generalizing r with
  | nil => simp at htr
  | @snoc tr s i hr hi ih =>
    rcases List.eq_nil_or_concat r with rfl | ⟨r', x, rfl⟩
    · obtain ⟨rfl, hlast⟩ := List.append_inj' htr rfl
      obtain rfl : M.event s i = e := by simpa using hlast
      exact ⟨hr, hi, rfl⟩
    · rw [List.concat_eq_append, ← List.cons_append, ← List.append_assoc] at htr
      exact ih (List.append_inj' htr rfl).1

theorem Run.event_at {tr : List (Event σ ι ρ)} {s : σ} (h : M.Run tr s) {n : ℕ}
    {e : Event σ ι ρ} (hn : tr[n]? = some e) :
    M.Run (tr.take n) e.pre ∧ M.enabled e.pre e.input ∧ e = M.event e.pre e.input := by
  obtain ⟨hlt, rfl⟩ := List.getElem?_eq_some_iff.mp hn
  exact h.split (by rw [← List.drop_eq_getElem_cons hlt, List.take_append_drop])

/-- A history leads to one state. -/
theorem Run.det {tr : List (Event σ ι ρ)} {s s' : σ} (h : M.Run tr s) (h' : M.Run tr s') :
    s = s' := by
  induction h generalizing s' with
  | nil =>
    generalize htr : ([] : List (Event σ ι ρ)) = tr at h'
    cases h' with
    | nil => rfl
    | snoc i hr hi => simp at htr
  | @snoc tr s i hr hi ih =>
    generalize htr : tr ++ [M.event s i] = tr' at h'
    cases h' with
    | nil => simp at htr
    | snoc j hr' hj =>
      obtain ⟨-, hlast⟩ := List.append_inj' htr rfl
      injection List.head_eq_of_cons_eq hlast with hs hi
      rw [hs, hi]

/-- The invariant rule from a state of the run on. -/
theorem Run.invariant_from {I : List (Event σ ι ρ) → σ → Prop} {l tr : List (Event σ ι ρ)}
    {x s : σ} (hx : M.Run l x) (h : M.Run tr s) (hl : l <+: tr) (h0 : I l x)
    (hs : ∀ tr s i, l <+: tr → M.Run tr s → I tr s → M.enabled s i →
      I (tr ++ [M.event s i]) (M.step s i).1) : I tr s := by
  induction h with
  | nil =>
    obtain rfl := List.prefix_nil.mp hl
    rwa [← hx.det Run.nil]
  | @snoc tr s i hr hi ih =>
    rcases List.prefix_concat_iff.mp hl with rfl | hl
    · rwa [← hx.det (hr.snoc i hi)]
    · exact hs tr s i hl hr (ih hl) hi

/-- The state after a step is the one the next step is taken in, or the last one. -/
theorem Run.next {tr : List (Event σ ι ρ)} {s : σ} (h : M.Run tr s) {n : ℕ} {e : Event σ ι ρ}
    (hn : tr[n]? = some e) :
    At tr (n + 1) (fun e' => e'.pre = M.post e) ∨ n + 1 = tr.length ∧ s = M.post e := by
  induction h with
  | nil => cases hn
  | @snoc tr s i hr hi ih =>
    rcases Nat.lt_or_ge n tr.length with hlt | hge
    · rw [List.getElem?_append_left hlt] at hn
      rcases ih hn with hnext | ⟨hlen, hs⟩
      · exact .inl (at_snoc.mpr (.inl hnext))
      · exact .inl (at_snoc.mpr (.inr ⟨hlen, hs⟩))
    · rw [List.getElem?_append_right hge, List.getElem?_singleton] at hn
      split at hn
      · cases hn
        exact .inr ⟨by simp; omega, rfl⟩
      · cases hn

/-- The states a run goes through, with the last one. -/
def Visited (tr : List (Event σ ι ρ)) (s x : σ) : Prop := x = s ∨ ∃ e ∈ tr, e.pre = x

/-- A state that a run goes through ends a prefix of it. -/
theorem Run.visited {tr : List (Event σ ι ρ)} {s x : σ} (h : M.Run tr s) (hx : Visited tr s x) :
    ∃ l, l <+: tr ∧ M.Run l x := by
  rcases hx with rfl | ⟨e, he, rfl⟩
  · exact ⟨tr, List.prefix_rfl, h⟩
  · obtain ⟨l, r, rfl⟩ := List.append_of_mem he
    exact ⟨l, List.prefix_append l _, (h.split rfl).1⟩

theorem Run.mem_event {tr : List (Event σ ι ρ)} {s : σ} (h : M.Run tr s) {e : Event σ ι ρ}
    (he : e ∈ tr) : M.Reachable e.pre ∧ M.enabled e.pre e.input ∧ e = M.event e.pre e.input := by
  obtain ⟨l, r, rfl⟩ := List.append_of_mem he
  obtain ⟨hr, hi, heq⟩ := h.split rfl
  exact ⟨⟨l, hr⟩, hi, heq⟩

end Machine

end Lib
