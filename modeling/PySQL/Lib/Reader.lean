import Mathlib.Order.Filter.AtTopBot.Basic
import Mathlib.Tactic

/-!
# Readers

A reader is a computation over an input that it consumes from the left and that may fail.  A loop
or a recursion in it runs on fuel: `Reads` says what a reader does once the fuel suffices.
-/

namespace Lib

/-- A state that holds an input: what is left of it, and the state after some of it is skipped. -/
structure Tape (σ κ : Type) where
  rest : σ → List κ
  skip : ℕ → σ → σ
  rest_skip : ∀ n s, rest (skip n s) = (rest s).drop n
  skip_zero : ∀ s, skip 0 s = s
  skip_skip : ∀ m n s, skip n (skip m s) = skip (m + n) s

abbrev Reader (σ ε : Type) : Type → Type := StateT σ (Except ε)

variable {σ κ ε α β : Type}

theorem Reader.bind_ok {p : Reader σ ε α} {q : α → Reader σ ε β} {s s' : σ} {a : α}
    (h : p s = .ok (a, s')) : (p >>= q) s = q a s' := by
  show (p s >>= fun r => q r.1 r.2) = _
  rw [h]
  rfl

theorem Reader.bind_error {p : Reader σ ε α} {q : α → Reader σ ε β} {s : σ} {e : ε}
    (h : p s = .error e) : (p >>= q) s = .error e := by
  show (p s >>= fun r => q r.1 r.2) = _
  rw [h]
  rfl

/-- With enough fuel `p` reads the word `w` and gives `a`, whatever follows a next token that
satisfies `stop`.  The fuel is enough where the filter says so. -/
def Reads {ι : Type} (tape : Tape σ κ) (F : Filter ι) (p : ι → Reader σ ε α) (w : List κ) (a : α)
    (stop : κ → Prop) : Prop :=
  ∀ᶠ n in F, ∀ s t rest, tape.rest s = w ++ t :: rest → stop t →
    p n s = .ok (a, tape.skip w.length s)

/-- A token that satisfies `stop` follows the word in front of every token that satisfies
`stop'`. -/
def Before (stop : κ → Prop) (w : List κ) (stop' : κ → Prop) : Prop :=
  match w with
  | [] => ∀ t, stop' t → stop t
  | t :: _ => stop t

variable {ι : Type} {F : Filter ι} {tape : Tape σ κ} {p : ι → Reader σ ε α}
  {q : α → ι → Reader σ ε β} {w v : List κ} {a : α} {b : β} {stop stop' : κ → Prop}

theorem Reads.pure : Reads tape F (fun _ => (Pure.pure a : Reader σ ε α)) [] a stop := by
  apply Filter.Eventually.of_forall
  intro n s t rest hs ht
  rw [List.length_nil, tape.skip_zero]
  rfl

theorem Reads.weaken (h : Reads tape F p w a stop) (hstop : ∀ t, stop' t → stop t) :
    Reads tape F p w a stop' := by
  filter_upwards [h] with n hn s t rest hs ht
  exact hn s t rest hs (hstop t ht)

theorem Reads.comp {ι' : Type} {G : Filter ι'} {f : ι' → ι} (h : Reads tape F p w a stop)
    (hf : Filter.Tendsto f G F) : Reads tape G (p ∘ f) w a stop :=
  hf.eventually h

theorem Reads.congr {p' : ι → Reader σ ε α} (h : Reads tape F p w a stop)
    (hp : ∀ᶠ n in F, p' n = p n) : Reads tape F p' w a stop := by
  filter_upwards [h, hp] with n hn heq
  rw [heq]
  exact hn

theorem Before.nil (h : ∀ t, stop' t → stop t) : Before stop [] stop' := h

theorem Before.cons {t : κ} (h : stop t) : Before stop (t :: w) stop' := h

theorem Before.next (h : Before stop w stop') {t : κ} (ht : stop' t) (rest : List κ) :
    ∃ u us, w ++ t :: rest = u :: us ∧ stop u := by
  cases w with
  | nil => exact ⟨t, rest, rfl, h t ht⟩
  | cons u us => exact ⟨u, us ++ t :: rest, rfl, h⟩

theorem Reads.bind (hp : Reads tape F p w a stop) (hq : Reads tape F (q a) v b stop')
    (hnext : Before stop v stop') :
    Reads tape F (fun n => p n >>= fun x => q x n) (w ++ v) b stop' := by
  filter_upwards [hp, hq] with n hp hq s t rest hs ht
  rw [List.append_assoc] at hs
  obtain ⟨u, us, hu, hstop⟩ := hnext.next ht rest
  rw [Reader.bind_ok (hp s u us (hu ▸ hs) hstop)]
  have hrest : tape.rest (tape.skip w.length s) = v ++ t :: rest := by
    rw [tape.rest_skip, hs, List.drop_left]
  rw [hq _ t rest hrest ht, tape.skip_skip, List.length_append]

theorem Reads.map (hp : Reads tape F p w a stop) (f : α → β) :
    Reads tape F (fun n => p n >>= fun x => Pure.pure (f x)) w (f a) stop := by
  have hbind : Reads tape F (fun n => p n >>= fun x => Pure.pure (f x)) (w ++ []) (f a) stop :=
    Reads.bind (q := fun x _ => Pure.pure (f x)) hp Reads.pure (.nil fun t ht => ht)
  rw [List.append_nil] at hbind
  exact hbind

/-! ## Loops

A loop takes turns of its own beside the fuel of what it calls. -/

section Loops

open Filter

variable {loop : ℕ → ℕ → Reader σ ε α}

/-- The loop reads the word once both the fuel and the turns suffice. -/
abbrev LoopReads (tape : Tape σ κ) (loop : ℕ → ℕ → Reader σ ε α) (w : List κ) (a : α)
    (stop : κ → Prop) : Prop :=
  Reads tape (atTop ×ˢ atTop) (fun n : ℕ × ℕ => loop n.1 n.2) w a stop

/-- What a turn of the loop calls. -/
theorem Reads.inLoop {p : ℕ → Reader σ ε α} (h : Reads tape atTop p w a stop) :
    Reads tape (atTop ×ˢ atTop) (fun n : ℕ × ℕ => p n.1) w a stop :=
  h.comp tendsto_fst

theorem LoopReads.of_turn
    (h : Reads tape (atTop ×ˢ atTop) (fun n : ℕ × ℕ => loop n.1 (n.2 + 1)) w a stop) :
    LoopReads tape loop w a stop := by
  have hpred : Tendsto (fun n : ℕ × ℕ => (n.1, n.2 - 1)) (atTop ×ˢ atTop) (atTop ×ˢ atTop) :=
    tendsto_fst.prodMk ((tendsto_sub_atTop_nat 1).comp tendsto_snd)
  apply (h.comp hpred).congr
  filter_upwards [tendsto_snd.eventually (eventually_gt_atTop 0)] with n hn
  rw [Function.comp_apply, Nat.sub_add_cancel hn]

theorem LoopReads.reads (h : LoopReads tape loop w a stop) :
    Reads tape atTop (fun n => loop n n) w a stop :=
  h.comp (tendsto_id.prodMk tendsto_id)

end Loops

/-! ## What a reader yields

Any result a reader gives from a state of the invariant `J` satisfies `Q`, and `J` still holds. -/

section Yields

variable {J : σ → Prop} {m : Reader σ ε α} {f : α → Reader σ ε β} {Q Q' : α → Prop} {R : β → Prop}

def Yields (J : σ → Prop) (m : Reader σ ε α) (Q : α → Prop) : Prop :=
  ∀ s a s', J s → m s = .ok (a, s') → J s' ∧ Q a

theorem Yields.pure (h : Q a) : Yields J (Pure.pure a : Reader σ ε α) Q := by
  intro s b s' hs hb
  cases hb
  exact ⟨hs, h⟩

theorem Yields.throw (e : ε) : Yields J (throw e : Reader σ ε α) Q := by
  intro s b s' _ hb
  cases hb

theorem Yields.bind (hm : Yields J m Q) (hf : ∀ a, Q a → Yields J (f a) R) :
    Yields J (m >>= f) R := by
  intro s b s' hs hb
  cases hr : m s with
  | error e =>
    rw [Reader.bind_error hr] at hb
    cases hb
  | ok r =>
    rw [Reader.bind_ok hr] at hb
    obtain ⟨hs', ha⟩ := hm s r.1 r.2 hs hr
    exact hf r.1 ha r.2 b s' hs' hb

theorem Yields.weaken (hm : Yields J m Q) (h : ∀ a, Q a → Q' a) : Yields J m Q' := by
  intro s a s' hs ha
  exact (hm s a s' hs ha).imp_right (h a)

theorem Yields.ite {c : Prop} [Decidable c] {m' : Reader σ ε α} (hm : Yields J m Q)
    (hm' : Yields J m' Q) : Yields J (if c then m else m') Q := by
  split
  · exact hm
  · exact hm'

end Yields

end Lib
