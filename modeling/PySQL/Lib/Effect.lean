import Mathlib.Tactic

/-!
# Calls that change a state and may raise

What a call has changed stays changed when it raises.
-/

namespace Lib

abbrev Effect (σ ε : Type) : Type → Type := ExceptT ε (StateM σ)

namespace Effect

variable {σ τ ε α β γ : Type} {m : Effect σ ε α} {f : α → Effect σ ε β} {s s' : σ} {a : α} {e : ε}

/-- A call that does not look at the state. -/
def lift (x : Except ε α) : Effect σ ε α := fun s => (x, s)

/-- A call that looks at the state. -/
def read (f : σ → α) : Effect σ ε α := fun s => (.ok (f s), s)

def change (f : σ → σ) : Effect σ ε Unit := fun s => (.ok (), f s)

/-- A call on a part of the state. -/
def zoom (part : σ → τ) (put : σ → τ → σ) (m : Effect τ ε α) : Effect σ ε α := fun s =>
  let r := m (part s)
  (r.1, put s r.2)

@[simp] theorem pure_apply : (pure a : Effect σ ε α) s = (.ok a, s) := rfl

@[simp] theorem lift_apply {x : Except ε α} : (lift x : Effect σ ε α) s = (x, s) := rfl

@[simp] theorem read_apply {f : σ → α} : (read f : Effect σ ε α) s = (.ok (f s), s) := rfl

@[simp] theorem change_apply {f : σ → σ} : (change f : Effect σ ε Unit) s = (.ok (), f s) := rfl

theorem bind_ok (h : m s = (.ok a, s')) : (m >>= f) s = f a s' := by
  show ExceptT.bindCont f (m s).1 (m s).2 = f a s'
  rw [h]
  rfl

theorem bind_error (h : m s = (.error e, s')) : (m >>= f) s = (.error e, s') := by
  show ExceptT.bindCont f (m s).1 (m s).2 = _
  rw [h]
  rfl

/-- What has returned is a call that returned and one that went on from it. -/
theorem bind_eq_ok {b : β} (h : (m >>= f) s = (.ok b, s')) :
    ∃ a s₁, m s = (.ok a, s₁) ∧ f a s₁ = (.ok b, s') := by
  rcases hm : m s with ⟨e | a, s₁⟩
  · rw [bind_error hm] at h
    cases h
  · rw [bind_ok hm] at h
    exact ⟨a, s₁, rfl, h⟩

theorem lift_eq_ok {x : Except ε α} (h : (lift x : Effect σ ε α) s = (.ok a, s')) :
    x = .ok a ∧ s' = s := by
  cases h
  exact ⟨rfl, rfl⟩

/-! ## What a call does to its state -/

/-- Whatever the call returns or raises, the state after it stands in `R` to the one before it. -/
def Within (R : σ → σ → Prop) (m : Effect σ ε α) : Prop := ∀ s, R s (m s).2

section Within

variable {R : σ → σ → Prop} {S : τ → τ → Prop} {part : σ → τ} {put : σ → τ → σ}

theorem Within.of_eq (h : Within R m) {result : Except ε α} (heq : m s = (result, s')) : R s s' := by
  have hs := h s
  rwa [heq] at hs

theorem within_lift [Std.Refl R] (x : Except ε α) : Within R (lift x : Effect σ ε α) :=
  fun s => Std.Refl.refl s

theorem within_pure [Std.Refl R] (a : α) : Within R (pure a : Effect σ ε α) :=
  fun s => Std.Refl.refl s

theorem within_read [Std.Refl R] (f : σ → α) : Within R (read f : Effect σ ε α) :=
  fun s => Std.Refl.refl s

theorem within_change {f : σ → σ} (h : ∀ s, R s (f s)) : Within R (change f : Effect σ ε Unit) := h

theorem Within.bind [IsTrans σ R] (hm : Within R m) (hf : ∀ a, Within R (f a)) :
    Within R (m >>= f) := by
  intro s
  rcases heq : m s with ⟨e | a, s₁⟩
  · rw [bind_error heq]
    exact hm.of_eq heq
  · rw [bind_ok heq]
    exact IsTrans.trans _ _ _ (hm.of_eq heq) (hf a s₁)

theorem Within.zoom {m : Effect τ ε α} (hm : Within S m)
    (hput : ∀ s t, S (part s) t → R s (put s t)) : Within R (zoom part put m) :=
  fun s => hput s _ (hm (part s))

theorem within_forM [Std.Refl R] [IsTrans σ R] {l : List α} {g : α → Effect σ ε PUnit}
    (hg : ∀ x ∈ l, Within R (g x)) : Within R (l.forM g) := by
  induction l with
  | nil => exact within_pure _
  | cons x rest ih =>
    exact (hg x (by simp)).bind fun _ => ih fun y hy => hg y (by simp [hy])

theorem within_foldlM [Std.Refl R] [IsTrans σ R] {l : List α} {g : β → α → Effect σ ε β}
    (hg : ∀ b x, Within R (g b x)) {b : β} : Within R (l.foldlM g b) := by
  induction l generalizing b with
  | nil => exact within_pure _
  | cons x rest ih =>
    rw [List.foldlM_cons]
    exact (hg b x).bind fun _ => ih

end Within

/-! ## Loops -/

variable {l : List α} {g : β → α → Effect σ ε β} {b b' : β}

theorem foldlM_cons_ok {x : α} (h : g b x s = (.ok b', s')) :
    (x :: l).foldlM g b s = l.foldlM g b' s' := by
  rw [List.foldlM_cons, bind_ok h]

theorem foldlM_cons_error {x : α} (h : g b x s = (.error e, s')) :
    (x :: l).foldlM g b s = (.error e, s') := by
  rw [List.foldlM_cons, bind_error h]

/-- A loop whose turns all return.  The invariant speaks of the turns that remain. -/
theorem foldlM_ok (I : List α → β → σ → Prop)
    (hturn : ∀ x rest b s, I (x :: rest) b s →
      ∃ b' s', g b x s = (.ok b', s') ∧ I rest b' s') (hinit : I l b s) :
    ∃ b' s', l.foldlM g b s = (.ok b', s') ∧ I [] b' s' := by
  induction l generalizing b s with
  | nil => exact ⟨b, s, rfl, hinit⟩
  | cons x rest ih =>
    obtain ⟨b₁, s₁, hg, hI⟩ := hturn x rest b s hinit
    obtain ⟨b', s', hrest, hend⟩ := ih hI
    exact ⟨b', s', by rw [foldlM_cons_ok hg, hrest], hend⟩

/-! ## Calls that do not look at the state -/

theorem lift_bind {x : Except ε α} {h : α → Except ε β} :
    (lift x >>= fun a => lift (h a) : Effect σ ε β) = lift (x >>= h) := by
  funext s
  cases x with
  | error e => exact bind_error rfl
  | ok a => exact bind_ok rfl

theorem foldlM_lift {h : β → α → Except ε β} :
    l.foldlM (fun b x => (lift (h b x) : Effect σ ε β)) b = lift (l.foldlM h b) := by
  induction l generalizing b with
  | nil => rfl
  | cons x rest ih =>
    simp only [List.foldlM_cons, ih]
    exact lift_bind

theorem mapError_bind {ε' : Type} {k : ε → ε'} {x : Except ε α} {h : α → Except ε β} :
    (x >>= h).mapError k = x.mapError k >>= fun a => (h a).mapError k := by
  cases x <;> rfl

theorem foldlM_mapError {ε' : Type} {k : ε → ε'} {h : β → α → Except ε β} :
    l.foldlM (fun b x => (h b x).mapError k) b = (l.foldlM h b).mapError k := by
  induction l generalizing b with
  | nil => rfl
  | cons x rest ih =>
    simp only [List.foldlM_cons, ih]
    exact mapError_bind.symm

end Effect

end Lib
