import Mathlib.Tactic

/-!
# Loops over a list that may raise

A loop of calls that may raise stops at the first error.  It succeeds if and only if every call
does, and then it is the loop without errors.
-/

namespace Lib

variable {ε α β : Type}

/-- Whether a test succeeds and is true. -/
def isTrue : Except ε Bool → Bool
  | .ok b => b
  | .error _ => false

@[simp] theorem isTrue_ok (b : Bool) : isTrue (.ok b : Except ε Bool) = b := rfl

def filterE (p : α → Except ε Bool) : List α → Except ε (List α)
  | [] => .ok []
  | x :: xs => do
    let keep ← p x
    let ys ← filterE p xs
    return if keep then x :: ys else ys

/-- The loop stops at the first element that passes. -/
def anyE (p : α → Except ε Bool) : List α → Except ε Bool
  | [] => .ok false
  | x :: xs => do
    if ← p x then return true else anyE p xs

def mapE (f : α → Except ε β) : List α → Except ε (List β)
  | [] => .ok []
  | x :: xs => do
    let y ← f x
    let ys ← mapE f xs
    return y :: ys

theorem exists_ok_of_isOk {x : Except ε α} (h : x.isOk = true) : ∃ a, x = .ok a := by
  cases x with
  | error e => cases h
  | ok a => exact ⟨a, rfl⟩

theorem exists_error_of_isOk {x : Except ε α} (h : x.isOk = false) : ∃ e, x = .error e := by
  cases x with
  | error e => exact ⟨e, rfl⟩
  | ok a => cases h

theorem ok_bind (a : α) (f : α → Except ε β) : (Except.ok a >>= f) = f a := rfl

theorem bind_eq_ok {x : Except ε α} {f : α → Except ε β} {b : β} (h : (x >>= f) = .ok b) :
    ∃ a, x = .ok a ∧ f a = .ok b := by
  cases x with
  | error e => cases h
  | ok a => exact ⟨a, rfl, h⟩

theorem except_map_eq_ok {x : Except ε α} {f : α → β} {b : β} (h : x.map f = .ok b) :
    ∃ a, x = .ok a ∧ f a = b := by
  cases x with
  | error e => cases h
  | ok a => exact ⟨a, rfl, Except.ok.inj h⟩

theorem isOk_iff {x : Except ε α} : x.isOk = true ↔ ∃ a, x = .ok a := by
  constructor
  · exact exists_ok_of_isOk
  · rintro ⟨a, rfl⟩
    rfl

theorem bind_isOk {x : Except ε α} {f : α → Except ε β} :
    (x >>= f).isOk = true ↔ ∃ a, x = .ok a ∧ (f a).isOk = true := by
  cases x with
  | error e =>
    constructor
    · intro h
      cases h
    · rintro ⟨a, ha, -⟩
      cases ha
  | ok a =>
    constructor
    · exact fun h => ⟨a, rfl, h⟩
    · rintro ⟨a', ha, h⟩
      cases ha
      exact h

theorem eq_ok_isTrue {x : Except ε Bool} (h : x.isOk = true) : x = .ok (isTrue x) := by
  obtain ⟨b, rfl⟩ := exists_ok_of_isOk h
  rfl

variable {p : α → Except ε Bool} {f : α → Except ε β} {l : List α}

theorem filterE_of_isOk (h : ∀ x ∈ l, (p x).isOk = true) :
    filterE p l = .ok (l.filter fun x => isTrue (p x)) := by
  induction l with
  | nil => rfl
  | cons x xs ih =>
    obtain ⟨b, hb⟩ := exists_ok_of_isOk (h x List.mem_cons_self)
    rw [filterE, hb, ih fun y hy => h y (List.mem_cons_of_mem _ hy)]
    cases b <;> simp [hb] <;> rfl

theorem mem_of_filterE {ys : List α} (h : filterE p l = .ok ys) {y : α} (hy : y ∈ ys) : y ∈ l := by
  induction l generalizing ys with
  | nil =>
    obtain rfl := Except.ok.inj h
    exact hy
  | cons x xs ih =>
    rw [filterE] at h
    cases hp : p x with
    | error e => rw [hp] at h; cases h
    | ok keep =>
      cases hrest : filterE p xs with
      | error e => rw [hp, hrest] at h; cases h
      | ok kept =>
        rw [hp, hrest] at h
        obtain rfl := Except.ok.inj h
        cases keep with
        | false => exact List.mem_cons_of_mem _ (ih hrest hy)
        | true =>
          rcases List.mem_cons.mp hy with rfl | hy
          · exact List.mem_cons_self
          · exact List.mem_cons_of_mem _ (ih hrest hy)

theorem filterE_isOk : (filterE p l).isOk = true ↔ ∀ x ∈ l, (p x).isOk = true := by
  constructor
  · intro h
    induction l with
    | nil => simp
    | cons x xs ih =>
      rw [filterE] at h
      cases hp : p x with
      | error e => rw [hp] at h; cases h
      | ok b =>
        rw [hp] at h
        cases hrest : filterE p xs with
        | error e => rw [hrest] at h; cases h
        | ok ys =>
          refine List.forall_mem_cons.mpr ⟨by rw [hp]; rfl, ih ?_⟩
          rw [hrest]
          rfl
  · intro h
    rw [filterE_of_isOk h]
    rfl

/-- The loop is a filter if and only if the test is that of the filter on each element. -/
theorem filterE_eq_filter_iff {q : α → Bool} :
    filterE p l = .ok (l.filter q) ↔ ∀ x ∈ l, p x = .ok (q x) := by
  constructor
  · intro h
    have hok : ∀ x ∈ l, (p x).isOk = true := filterE_isOk.mp (by rw [h]; rfl)
    rw [filterE_of_isOk hok, Except.ok.injEq] at h
    intro x hx
    rw [eq_ok_isTrue (hok x hx), Except.ok.injEq, Bool.eq_iff_iff]
    have hmem : x ∈ l.filter (fun x => isTrue (p x)) ↔ x ∈ l.filter q := by rw [h]
    simpa [hx] using hmem
  · intro h
    rw [filterE_of_isOk fun x hx => by rw [h x hx]; rfl]
    congr 1
    refine List.filter_congr fun x hx => ?_
    rw [h x hx, isTrue_ok]

theorem anyE_of_isOk (h : ∀ x ∈ l, (p x).isOk = true) :
    anyE p l = .ok (l.any fun x => isTrue (p x)) := by
  induction l with
  | nil => rfl
  | cons x xs ih =>
    obtain ⟨b, hb⟩ := exists_ok_of_isOk (h x List.mem_cons_self)
    rw [anyE, hb, ih fun y hy => h y (List.mem_cons_of_mem _ hy)]
    cases b <;> simp [hb] <;> rfl

theorem mapE_of_ok {g : α → β} (h : ∀ x ∈ l, f x = .ok (g x)) : mapE f l = .ok (l.map g) := by
  induction l with
  | nil => rfl
  | cons x xs ih =>
    rw [mapE, h x List.mem_cons_self, ih fun y hy => h y (List.mem_cons_of_mem _ hy)]
    rfl

theorem mapE_of_getElem {ys : List β} (hlen : ys.length = l.length)
    (h : ∀ (i : ℕ) x y, l[i]? = some x → ys[i]? = some y → f x = .ok y) : mapE f l = .ok ys := by
  induction l generalizing ys with
  | nil =>
    obtain rfl := List.length_eq_zero_iff.mp hlen
    rfl
  | cons x xs ih =>
    obtain ⟨y, ys, rfl⟩ := List.exists_cons_of_length_eq_add_one hlen
    have hrest : mapE f xs = .ok ys := ih (by simpa using hlen) fun i => h (i + 1)
    rw [mapE, h 0 x y rfl rfl, hrest]
    rfl

/-- A loop whose calls all succeed, with what each of them gives. -/
theorem exists_mapE {P : ℕ → β → Prop}
    (h : ∀ (i : ℕ) x, l[i]? = some x → ∃ y, f x = .ok y ∧ P i y) :
    ∃ ys, mapE f l = .ok ys ∧ ys.length = l.length ∧ ∀ (i : ℕ) y, ys[i]? = some y → P i y := by
  induction l generalizing P with
  | nil => exact ⟨[], rfl, rfl, fun i y hy => by simp at hy⟩
  | cons x xs ih =>
    obtain ⟨y, hy, hP⟩ := h 0 x rfl
    obtain ⟨ys, hys, hlen, hrest⟩ := ih fun i => h (i + 1)
    refine ⟨y :: ys, ?_, by simp [hlen], ?_⟩
    · rw [mapE, hy, hys]
      rfl
    · intro i z hz
      cases i with
      | zero =>
        obtain rfl : y = z := Option.some.inj hz
        exact hP
      | succ i => exact hrest i z hz

theorem filterE_map {γ : Type} {g : γ → α} {xs : List γ} :
    filterE p (xs.map g) = (filterE (fun x => p (g x)) xs).map (List.map g) := by
  induction xs with
  | nil => rfl
  | cons x xs ih =>
    rw [List.map_cons, filterE, filterE, ih]
    cases p (g x) with
    | error e => rfl
    | ok keep => cases filterE (fun x => p (g x)) xs <;> cases keep <;> rfl

theorem filterE_append {xs ys : List α} :
    filterE p (xs ++ ys) = (do return (← filterE p xs) ++ (← filterE p ys)) := by
  induction xs with
  | nil =>
    rw [List.nil_append]
    cases filterE p ys <;> rfl
  | cons x xs ih =>
    rw [List.cons_append, filterE, filterE, ih]
    cases p x with
    | error e => rfl
    | ok keep =>
      cases filterE p xs with
      | error e => rfl
      | ok kept => cases filterE p ys <;> cases keep <;> rfl

theorem filterE_congr {q : α → Except ε Bool} (h : ∀ x ∈ l, p x = q x) :
    filterE p l = filterE q l := by
  induction l with
  | nil => rfl
  | cons x xs ih =>
    rw [List.forall_mem_cons] at h
    rw [filterE, filterE, h.1, ih h.2]

theorem mapE_map {γ : Type} {g : γ → α} {xs : List γ} :
    mapE f (xs.map g) = mapE (fun x => f (g x)) xs := by
  induction xs with
  | nil => rfl
  | cons x xs ih => rw [List.map_cons, mapE, mapE, ih]

theorem mapE_mapOk {γ : Type} {g : β → γ} :
    mapE (fun x => (f x).map g) l = (mapE f l).map (List.map g) := by
  induction l with
  | nil => rfl
  | cons x xs ih =>
    rw [mapE, mapE, ih]
    cases f x with
    | error e => rfl
    | ok y => cases mapE f xs <;> rfl

theorem mapE_congr {g : α → Except ε β} (h : ∀ x ∈ l, f x = g x) : mapE f l = mapE g l := by
  induction l with
  | nil => rfl
  | cons x xs ih =>
    rw [List.forall_mem_cons] at h
    rw [mapE, mapE, h.1, ih h.2]

theorem mem_of_mapE {ys : List β} (h : mapE f l = .ok ys) {y : β} (hy : y ∈ ys) :
    ∃ x ∈ l, f x = .ok y := by
  induction l generalizing ys with
  | nil =>
    obtain rfl := Except.ok.inj h
    cases hy
  | cons x xs ih =>
    obtain ⟨z, hz, h⟩ := bind_eq_ok h
    obtain ⟨zs, hzs, h⟩ := bind_eq_ok h
    obtain rfl := Except.ok.inj h
    rcases List.mem_cons.mp hy with rfl | hy
    · exact ⟨x, List.mem_cons_self, hz⟩
    · obtain ⟨x', hx', hfx'⟩ := ih hzs hy
      exact ⟨x', List.mem_cons_of_mem _ hx', hfx'⟩

theorem length_of_mapE {ys : List β} (h : mapE f l = .ok ys) : ys.length = l.length := by
  induction l generalizing ys with
  | nil =>
    obtain rfl := Except.ok.inj h
    rfl
  | cons x xs ih =>
    obtain ⟨y, -, h⟩ := bind_eq_ok h
    obtain ⟨rest, hrest, h⟩ := bind_eq_ok h
    obtain rfl := Except.ok.inj h
    rw [List.length_cons, List.length_cons, ih hrest]

theorem mapE_isOk : (mapE f l).isOk = true ↔ ∀ x ∈ l, (f x).isOk = true := by
  constructor
  · intro h
    induction l with
    | nil => simp
    | cons x xs ih =>
      rw [mapE] at h
      cases hf : f x with
      | error e => rw [hf] at h; cases h
      | ok y =>
        rw [hf] at h
        cases hrest : mapE f xs with
        | error e => rw [hrest] at h; cases h
        | ok ys =>
          refine List.forall_mem_cons.mpr ⟨by rw [hf]; rfl, ih ?_⟩
          rw [hrest]
          rfl
  · intro h
    induction l with
    | nil => rfl
    | cons x xs ih =>
      rw [List.forall_mem_cons] at h
      obtain ⟨y, hy⟩ := exists_ok_of_isOk h.1
      obtain ⟨ys, hys⟩ := exists_ok_of_isOk (ih h.2)
      rw [mapE, hy, hys]
      rfl

theorem mapE_of_isOk (h : ∀ x ∈ l, (f x).isOk = true) :
    mapE f l = .ok (l.filterMap fun x => (f x).toOption) := by
  induction l with
  | nil => rfl
  | cons x xs ih =>
    rw [List.forall_mem_cons] at h
    obtain ⟨y, hy⟩ := exists_ok_of_isOk h.1
    rw [mapE, hy, ih h.2, List.filterMap_cons, hy]
    rfl

/-- What every turn of a loop keeps. -/
theorem foldlM_keeps {I : β → Prop} {g : β → α → Except ε β} {b b' : β}
    (hturn : ∀ b x b', I b → g b x = .ok b' → I b') (hb : I b) (h : l.foldlM g b = .ok b') :
    I b' := by
  induction l generalizing b with
  | nil =>
    cases h
    exact hb
  | cons x rest ih =>
    rw [List.foldlM_cons] at h
    obtain ⟨b₁, hfirst, h⟩ := bind_eq_ok h
    exact ih (hturn b x b₁ hb hfirst) h

/-- A loop that appends what each call gives. -/
theorem foldlM_append_mapE (acc : List β) :
    l.foldlM (fun acc x => do return acc ++ [← f x]) acc = (mapE f l).map (acc ++ ·) := by
  induction l generalizing acc with
  | nil =>
    rw [mapE, List.foldlM_nil, Except.map, List.append_nil]
    rfl
  | cons x xs ih =>
    rw [List.foldlM_cons, mapE]
    cases f x with
    | error e => rfl
    | ok y =>
      show xs.foldlM _ (acc ++ [y]) = _
      rw [ih]
      cases mapE f xs with
      | error e => rfl
      | ok ys => exact congrArg Except.ok (List.append_assoc acc [y] ys)

/-- A loop that appends something of each element that passes. -/
theorem foldlM_append_filterE (g : α → β) (acc : List β) :
    l.foldlM (fun acc x => do return if ← p x then acc ++ [g x] else acc) acc =
      (filterE p l).map (fun kept => acc ++ kept.map g) := by
  induction l generalizing acc with
  | nil =>
    rw [filterE, List.foldlM_nil, Except.map, List.map_nil, List.append_nil]
    rfl
  | cons x xs ih =>
    rw [List.foldlM_cons, filterE]
    cases p x with
    | error e => rfl
    | ok keep =>
      show xs.foldlM _ (if keep then acc ++ [g x] else acc) = _
      rw [ih]
      cases filterE p xs with
      | error e => rfl
      | ok kept =>
        cases keep with
        | false => rfl
        | true => exact congrArg Except.ok (List.append_assoc acc [g x] (kept.map g))

/-- The order of a list does not matter to whether a loop over it succeeds. -/
theorem mapE_perm {l' : List α} (h : l.Perm l') :
    (∃ ys ys', mapE f l = .ok ys ∧ mapE f l' = .ok ys' ∧ ys.Perm ys') ∨
      (mapE f l).isOk = false ∧ (mapE f l').isOk = false := by
  by_cases hok : ∀ x ∈ l, (f x).isOk = true
  · have hok' : ∀ x ∈ l', (f x).isOk = true := fun x hx => hok x (h.mem_iff.mpr hx)
    exact .inl ⟨_, _, mapE_of_isOk hok, mapE_of_isOk hok', h.filterMap _⟩
  · refine .inr ⟨?_, ?_⟩
    · rw [Bool.eq_false_iff]
      exact fun hmap => hok (mapE_isOk.mp hmap)
    · rw [Bool.eq_false_iff]
      exact fun hmap => hok fun x hx => mapE_isOk.mp hmap x (h.mem_iff.mp hx)

/-- The order of a list does not matter to whether a filter of it succeeds. -/
theorem filterE_perm {l' : List α} (h : l.Perm l') :
    (∃ ys ys', filterE p l = .ok ys ∧ filterE p l' = .ok ys' ∧ ys.Perm ys') ∨
      (filterE p l).isOk = false ∧ (filterE p l').isOk = false := by
  by_cases hok : ∀ x ∈ l, (p x).isOk = true
  · have hok' : ∀ x ∈ l', (p x).isOk = true := fun x hx => hok x (h.mem_iff.mpr hx)
    exact .inl ⟨_, _, filterE_of_isOk hok, filterE_of_isOk hok', h.filter _⟩
  · refine .inr ⟨?_, ?_⟩
    · rw [Bool.eq_false_iff]
      exact fun hfilter => hok (filterE_isOk.mp hfilter)
    · rw [Bool.eq_false_iff]
      exact fun hfilter => hok fun x hx => filterE_isOk.mp hfilter x (h.mem_iff.mp hx)

/-- A filter without exceptions that keeps other elements gives another list in any order. -/
theorem filterE_perm_filter_iff {q : α → Bool} :
    (∃ ys, filterE p l = .ok ys ∧ (l.filter q).Perm ys) ↔ ∀ x ∈ l, p x = .ok (q x) := by
  constructor
  · rintro ⟨ys, hys, hperm⟩
    have hok : ∀ x ∈ l, (p x).isOk = true := filterE_isOk.mp (by rw [hys]; rfl)
    rw [filterE_of_isOk hok, Except.ok.injEq] at hys
    subst hys
    intro x hx
    rw [eq_ok_isTrue (hok x hx), Except.ok.injEq, Bool.eq_iff_iff]
    have hmem : x ∈ l.filter q ↔ x ∈ l.filter (fun x => isTrue (p x)) := hperm.mem_iff
    simpa [hx] using hmem.symm
  · intro h
    exact ⟨_, filterE_eq_filter_iff.mpr h, .refl _⟩

theorem map_range_getElem? (l : List α) (d : α) :
    (List.range l.length).map (fun i => (l[i]?).getD d) = l := by
  refine List.ext_getElem (by simp) fun i hi _ => ?_
  rw [List.length_map, List.length_range] at hi
  simp [hi]

/-- A loop over the places of a list. -/
theorem filterE_range (l : List α) (d : α) :
    filterE p l = (filterE (fun i => p ((l[i]?).getD d)) (List.range l.length)).map
      (List.map fun i => (l[i]?).getD d) := by
  conv_lhs => rw [← map_range_getElem? l d]
  exact filterE_map

end Lib
