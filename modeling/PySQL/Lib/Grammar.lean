import PySQL.Lib.Reader

/-!
# Predictive grammars

A grammar whose choices are decided by the next tokens.  It has two readings: `Reads` follows the
choices from left to right over an input, and `Derives` leaves them open, as a context-free grammar
does.  A symbol hands on an attribute of what was read.  `Follows` compares a reader with a rule.
-/

namespace Lib

/-- What a symbol of the grammar stands for, over tokens of the types `τ` and attributes `φ`. -/
inductive Rule (N τ φ : Type) where
  | done (b : φ)
  | fail
  /-- A token before the end, of one of the types. -/
  | token (types : List τ) (next : Rule N τ φ)
  /-- Any token before the end. -/
  | any (next : Rule N τ φ)
  /-- Any token, the end included; no derivation goes on here. -/
  | pass (next : Rule N τ φ)
  | call (n : N) (next : φ → Rule N τ φ)
  /-- The first rule where the token so many places ahead has one of the types. -/
  | branch (offset : ℕ) (types : List τ) (yes no : Rule N τ φ)

/-- Past the end of the input stand tokens of the type `stop`. -/
structure Grammar (κ τ N φ : Type) where
  kind : κ → τ
  stop : τ
  rules : N → Rule N τ φ

namespace Grammar

variable {κ τ N φ : Type} (G : Grammar κ τ N φ)

def kindAt (w : List κ) (n : ℕ) : τ := (w[n]?).elim G.stop G.kind

/-- The reading of a rule takes a part of the input, with this attribute, and leaves the rest. -/
inductive Reads : Rule N τ φ → List κ → φ → List κ → Prop where
  | done {w b} : Reads (.done b) w b w
  | token {types r w b w'} (h : G.kindAt w 0 ∈ types) (hne : G.kindAt w 0 ≠ G.stop)
    (hr : Reads r w.tail b w') : Reads (.token types r) w b w'
  | any {r w b w'} (h : G.kindAt w 0 ≠ G.stop) (hr : Reads r w.tail b w') : Reads (.any r) w b w'
  | pass {r w b w'} (hr : Reads r w.tail b w') : Reads (.pass r) w b w'
  | call {n r w a u b w'} (hn : Reads (G.rules n) w a u) (hr : Reads (r a) u b w') :
    Reads (.call n r) w b w'
  | yes {offset types y n w b w'} (h : G.kindAt w offset ∈ types) (hy : Reads y w b w') :
    Reads (.branch offset types y n) w b w'
  | no {offset types y n w b w'} (h : G.kindAt w offset ∉ types) (hn : Reads n w b w') :
    Reads (.branch offset types y n) w b w'

/-- The reading of a rule from this input comes to the symbol, with so much of the input left. -/
inductive Meets : Rule N τ φ → List κ → N → List κ → Prop where
  | token {types r w m v} (h : G.kindAt w 0 ∈ types) (hne : G.kindAt w 0 ≠ G.stop)
    (hr : Meets r w.tail m v) : Meets (.token types r) w m v
  | any {r w m v} (h : G.kindAt w 0 ≠ G.stop) (hr : Meets r w.tail m v) : Meets (.any r) w m v
  | pass {r w m v} (hr : Meets r w.tail m v) : Meets (.pass r) w m v
  | here {n r w} : Meets (.call n r) w n w
  | within {n r w m v} (hn : Meets (G.rules n) w m v) : Meets (.call n r) w m v
  | beyond {n r w a u m v} (hn : G.Reads (G.rules n) w a u) (hr : Meets (r a) u m v) :
    Meets (.call n r) w m v
  | yes {offset types y n w m v} (h : G.kindAt w offset ∈ types) (hy : Meets y w m v) :
    Meets (.branch offset types y n) w m v
  | no {offset types y n w m v} (h : G.kindAt w offset ∉ types) (hn : Meets n w m v) :
    Meets (.branch offset types y n) w m v

/-- The words of a rule, with every choice left open, without the symbols that are lax. -/
inductive Derives (lax : N → Prop) : Rule N τ φ → List κ → φ → Prop where
  | done {b} : Derives lax (.done b) [] b
  | token {types r l w b} (h : G.kind l ∈ types) (hr : Derives lax r w b) :
    Derives lax (.token types r) (l :: w) b
  | any {r l w b} (hr : Derives lax r w b) : Derives lax (.any r) (l :: w) b
  | call {n r u a w b} (hlax : ¬ lax n) (hn : Derives lax (G.rules n) u a)
    (hr : Derives lax (r a) w b) : Derives lax (.call n r) (u ++ w) b
  | yes {offset types y n w b} (hy : Derives lax y w b) : Derives lax (.branch offset types y n) w b
  | no {offset types y n w b} (hn : Derives lax n w b) : Derives lax (.branch offset types y n) w b

variable {G} {r y n : Rule N τ φ} {m : N} {w w' v : List κ} {a b : φ} {types : List τ} {offset : ℕ}

/-- The next tokens decide the reading. -/
theorem Reads.unique (h : G.Reads r w b w') {b' : φ} {w'' : List κ} (h' : G.Reads r w b' w'') :
    b = b' ∧ w' = w'' := by
  induction h generalizing b' w'' with
  | done => cases h'; exact ⟨rfl, rfl⟩
  | token _ _ _ ih => cases h' with | token _ _ hr => exact ih hr
  | any _ _ ih => cases h' with | any _ hr => exact ih hr
  | pass _ ih => cases h' with | pass hr => exact ih hr
  | call _ _ ihn ihr =>
    cases h' with
    | call hn hr =>
      obtain ⟨rfl, rfl⟩ := ihn hn
      exact ihr hr
  | yes hin _ ih =>
    cases h' with
    | yes _ hy => exact ih hy
    | no hout _ => exact absurd hin hout
  | no hout _ ih =>
    cases h' with
    | yes hin _ => exact absurd hin hout
    | no _ hn => exact ih hn

/-! ## What a reading comes to -/

theorem meets_done : ¬ G.Meets (.done b) w m v := nofun

theorem meets_fail : ¬ G.Meets .fail w m v := nofun

theorem Meets.of_token (h : G.Meets (.token types r) w m v) :
    G.kindAt w 0 ∈ types ∧ G.Meets r w.tail m v := by
  cases h with | token hin _ hr => exact ⟨hin, hr⟩

theorem Meets.of_any (h : G.Meets (.any r) w m v) :
    G.kindAt w 0 ≠ G.stop ∧ G.Meets r w.tail m v := by
  cases h with | any hne hr => exact ⟨hne, hr⟩

theorem Meets.of_pass (h : G.Meets (.pass r) w m v) : G.Meets r w.tail m v := by
  cases h with | pass hr => exact hr

theorem Meets.of_call {s : N} {next : φ → Rule N τ φ} (h : G.Meets (.call s next) w m v) :
    (m = s ∧ v = w) ∨ G.Meets (G.rules s) w m v ∨
      ∃ a u, G.Reads (G.rules s) w a u ∧ G.Meets (next a) u m v := by
  cases h with
  | here => exact .inl ⟨rfl, rfl⟩
  | within hn => exact .inr (.inl hn)
  | beyond hn hr => exact .inr (.inr ⟨_, _, hn, hr⟩)

theorem reads_branch_yes (h : G.kindAt w offset ∈ types) :
    G.Reads (.branch offset types y n) w b w' ↔ G.Reads y w b w' := by
  constructor
  · rintro (_ | _ | _ | _ | _ | ⟨_, hy⟩ | ⟨hout, _⟩)
    · exact hy
    · exact absurd h hout
  · exact .yes h

theorem reads_branch_no (h : G.kindAt w offset ∉ types) :
    G.Reads (.branch offset types y n) w b w' ↔ G.Reads n w b w' := by
  constructor
  · rintro (_ | _ | _ | _ | _ | ⟨hin, _⟩ | ⟨_, hn⟩)
    · exact absurd hin h
    · exact hn
  · exact .no h

theorem reads_call_done {s : N} :
    G.Reads (.call s .done) w b w' ↔ G.Reads (G.rules s) w b w' := by
  constructor
  · intro h
    cases h with
    | call hn hr =>
      cases hr
      exact hn
  · exact fun h => .call h .done

theorem meets_branch_yes (h : G.kindAt w offset ∈ types) :
    G.Meets (.branch offset types y n) w m v ↔ G.Meets y w m v := by
  constructor
  · rintro (_ | _ | _ | _ | _ | _ | ⟨_, hy⟩ | ⟨hout, _⟩)
    · exact hy
    · exact absurd h hout
  · exact .yes h

theorem meets_branch_no (h : G.kindAt w offset ∉ types) :
    G.Meets (.branch offset types y n) w m v ↔ G.Meets n w m v := by
  constructor
  · rintro (_ | _ | _ | _ | _ | _ | ⟨hin, _⟩ | ⟨_, hn⟩)
    · exact absurd hin h
    · exact hn
  · exact .no h

end Grammar

/-! ## A reading is a derivation -/

/-- Nothing is passed over, except in the rules of other symbols. -/
def Rule.PassFree {N τ φ : Type} : Rule N τ φ → Prop
  | .done _ | .fail => True
  | .pass _ => False
  | .token _ r | .any r => r.PassFree
  | .call _ r => ∀ b, (r b).PassFree
  | .branch _ _ y n => y.PassFree ∧ n.PassFree

namespace Grammar

variable {κ τ N φ : Type} {G : Grammar κ τ N φ} {lax : N → Prop}

theorem kindAt_zero {w : List κ} (h : G.kindAt w 0 ≠ G.stop) :
    ∃ l, w = l :: w.tail ∧ G.kind l = G.kindAt w 0 := by
  cases w with
  | nil => exact absurd rfl h
  | cons l w => exact ⟨l, rfl, rfl⟩

/-- A word that a reading takes in front of the rest of the input. -/
def Takes (G : Grammar κ τ N φ) (lax : N → Prop) (r : Rule N τ φ) (w : List κ) (b : φ)
    (w' : List κ) : Prop :=
  ∃ u, w = u ++ w' ∧ (∀ l ∈ u, G.kind l ≠ G.stop) ∧ G.Derives lax r u b

theorem Takes.next {r r' : Rule N τ φ} {w w' : List κ} {b : φ} (hne : G.kindAt w 0 ≠ G.stop)
    (h : G.Takes lax r w.tail b w')
    (hcons : ∀ {l u}, G.kind l = G.kindAt w 0 → G.Derives lax r u b →
      G.Derives lax r' (l :: u) b) :
    G.Takes lax r' w b w' := by
  obtain ⟨u, hu, hstop, hder⟩ := h
  obtain ⟨l, hw, hl⟩ := kindAt_zero hne
  refine ⟨l :: u, by rw [hw, hu]; rfl, ?_, hcons hl hder⟩
  exact List.forall_mem_cons.mpr ⟨hl ▸ hne, hstop⟩

/-- A reading that comes to no lax symbol takes a word of the rule. -/
theorem Reads.takes (hpass : ∀ n, ¬ lax n → (G.rules n).PassFree) {r : Rule N τ φ}
    {w w' : List κ} {b : φ} (h : G.Reads r w b w') (hr : r.PassFree)
    (hlax : ∀ n v, G.Meets r w n v → ¬ lax n) : G.Takes lax r w b w' := by
  induction h with
  | done => exact ⟨[], rfl, nofun, .done⟩
  | token h hne _ ih =>
    apply Takes.next hne (ih hr fun n v hn => hlax n v (.token h hne hn))
    exact fun hl hder => .token (hl ▸ h) hder
  | any h _ ih =>
    apply Takes.next h (ih hr fun n v hn => hlax n v (.any h hn))
    exact fun _ hder => .any hder
  | pass _ _ => exact hr.elim
  | @call n r w a u b w' hn _ ihn ihr =>
    have hn' := hlax n w .here
    obtain ⟨u₁, rfl, hs₁, hd₁⟩ := ihn (hpass n hn') fun m v hm => hlax m v (.within hm)
    obtain ⟨u₂, hu₂, hs₂, hd₂⟩ := ihr (hr a) fun m v hm => hlax m v (.beyond hn hm)
    refine ⟨u₁ ++ u₂, by rw [hu₂, List.append_assoc], ?_, .call hn' hd₁ hd₂⟩
    intro l hl
    exact (List.mem_append.mp hl).elim (hs₁ l) (hs₂ l)
  | yes h _ ih =>
    obtain ⟨u, hu, hs, hd⟩ := ih hr.1 fun n v hn => hlax n v (.yes h hn)
    exact ⟨u, hu, hs, .yes hd⟩
  | no h _ ih =>
    obtain ⟨u, hu, hs, hd⟩ := ih hr.2 fun n v hn => hlax n v (.no h hn)
    exact ⟨u, hu, hs, .no hd⟩

end Grammar

/-! ## Where a reading ends -/

/-- Every way through the rule ends at the type `stop`, or with the symbol. -/
inductive Rule.EndsAt {N τ φ : Type} (stop : τ) (symbol : N) : Rule N τ φ → Prop where
  | stop {b r} (hr : EndsAt stop symbol r) : EndsAt stop symbol (.branch 0 [stop] (.done b) r)
  | call {n r} (hr : ∀ a, EndsAt stop symbol (r a)) : EndsAt stop symbol (.call n r)
  | last (f : φ → φ) : EndsAt stop symbol (.call symbol fun a => .done (f a))

namespace Grammar

variable {κ τ N φ : Type} {G : Grammar κ τ N φ} {symbol : N} {r : Rule N τ φ} {w w' : List κ} {b : φ}

/-- A symbol whose rule ends at the end of the input, or with the symbol, reads up to the end. -/
theorem Reads.ends (hsymbol : (G.rules symbol).EndsAt G.stop symbol) (h : G.Reads r w b w')
    (hr : r.EndsAt G.stop symbol) : G.kindAt w' 0 = G.stop := by
  induction h with
  | done | token | any | pass => nomatch hr
  | call _ hnext ihn ihr =>
    cases hr with
    | call hr => exact ihr (hr _)
    | last _ =>
      cases hnext
      exact ihn hsymbol
  | yes h hy _ =>
    cases hr with
    | stop _ =>
      cases hy
      exact List.mem_singleton.mp h
  | no _ _ ih =>
    cases hr with
    | stop hr => exact ih hr

/-- Where the input has one token of the type `stop`, its last, a word that comes up to the end is
all of the input before that token. -/
theorem eq_of_append_stop {u : List κ} {l : κ} (h : u ++ w' = w ++ [l])
    (hu : ∀ x ∈ u, G.kind x ≠ G.stop) (hw : ∀ x ∈ w, G.kind x ≠ G.stop) (hl : G.kind l = G.stop)
    (hend : G.kindAt w' 0 = G.stop) : u = w := by
  induction u generalizing w with
  | nil =>
    cases w with
    | nil => rfl
    | cons x w =>
      rw [List.nil_append] at h
      rw [h] at hend
      exact absurd hend (hw x List.mem_cons_self)
  | cons y u ih =>
    cases w with
    | nil =>
      obtain ⟨rfl, -⟩ := List.cons.inj h
      exact absurd hl (hu y List.mem_cons_self)
    | cons x w =>
      obtain ⟨rfl, htail⟩ := List.cons.inj h
      rw [ih htail (fun x hx => hu x (List.mem_cons_of_mem y hx))
        fun x hx => hw x (List.mem_cons_of_mem y hx)]

end Grammar

/-! ## Readers -/

/-- What a reader is compared by: where its state has the input, what its states satisfy, the
symbols at which it refuses the input, and the errors by which it rejects or refuses it. -/
structure Scheme (σ ε κ τ N φ : Type) where
  grammar : Grammar κ τ N φ
  rest : σ → List κ
  Inv : σ → Prop
  Refused : N → List κ → Prop
  rejection : ε → Prop
  refusal : ε → Prop

namespace Scheme

variable {σ ε κ τ N φ α β : Type} (S : Scheme σ ε κ τ N φ)

def left (s : σ) : ℕ := (S.rest s).length

/-- The reading comes to no symbol that is refused there. -/
def Calm (r : Rule N τ φ) (w : List κ) : Prop := ∀ n v, S.grammar.Meets r w n v → ¬ S.Refused n v

/-- The reading does not come to the end of the rule. -/
def Stuck (r : Rule N τ φ) (w : List κ) : Prop := ∀ b w', ¬ S.grammar.Reads r w b w'

/-- From the state `s` the outcome is the one of the rule: a result of the attribute that took at
least `d` tokens, a rejection of the input, or a refusal exactly where the reading comes to a
refused symbol. -/
def Follows (s : σ) (d : ℕ) (attr : α → φ) (r : Rule N τ φ) : Except ε (α × σ) → Prop
  | .ok (a, s') =>
    (S.grammar.Reads r (S.rest s) (attr a) (S.rest s') ∧ S.Calm r (S.rest s)) ∧ S.Inv s' ∧
      S.left s' + d ≤ S.left s
  | .error e =>
    (S.rejection e ∧ S.Stuck r (S.rest s) ∧ S.Calm r (S.rest s)) ∨
      (S.refusal e ∧ ¬ S.Calm r (S.rest s))

/-- The reader follows the rule where at most `k` tokens are left. -/
def Tracks (k d : ℕ) (attr : α → φ) (m : Reader σ ε α) (r : Rule N τ φ) : Prop :=
  ∀ s, S.Inv s → S.left s ≤ k → S.Follows s d attr r (m s)

variable {S} {s s' : σ} {k j d d' : ℕ} {attr : α → φ} {attr' : β → φ} {r y n : Rule N τ φ}
  {next : φ → Rule N τ φ} {m : Reader σ ε α} {f : α → Reader σ ε β} {out : Except ε (α × σ)}
  {w : List κ} {types : List τ} {offset : ℕ} {b : φ}

theorem calm_done : S.Calm (.done b) w := fun _ _ h => absurd h Grammar.meets_done

theorem calm_fail : S.Calm .fail w := fun _ _ h => absurd h Grammar.meets_fail

theorem calm_call {m : N} :
    S.Calm (.call m next) w ↔ ¬ S.Refused m w ∧ S.Calm (S.grammar.rules m) w ∧
      ∀ a u, S.grammar.Reads (S.grammar.rules m) w a u → S.Calm (next a) u := by
  constructor
  · intro h
    exact ⟨h m w .here, fun n v hn => h n v (.within hn),
      fun a u hu n v hn => h n v (.beyond hu hn)⟩
  · rintro ⟨hhere, hwithin, hbeyond⟩ n v hn
    obtain ⟨rfl, rfl⟩ | hn | ⟨a, u, hu, hn⟩ := hn.of_call
    · exact hhere
    · exact hwithin n v hn
    · exact hbeyond a u hu n v hn

theorem calm_congr {r' : Rule N τ φ} {w' : List κ}
    (h : ∀ n v, S.grammar.Meets r w n v ↔ S.grammar.Meets r' w' n v) :
    S.Calm r w ↔ S.Calm r' w' := by
  simp only [Calm, h]

theorem Follows.left_le {a : α} (h : S.Follows s d attr r (.ok (a, s'))) :
    S.left s' + d ≤ S.left s :=
  h.2.2

theorem Follows.weaken (h : S.Follows s d attr r out) (hd : d' ≤ d) :
    S.Follows s d' attr r out := by
  match out, h with
  | .ok (_, _), ⟨hr, hinv, hleft⟩ => exact ⟨hr, hinv, by omega⟩
  | .error _, h => exact h

/-- The same outcome under another rule, which reads on as the first does from the state `s'`. -/
theorem Follows.step {r' : Rule N τ φ} (h : S.Follows s' d attr r out)
    (hleft : S.left s' + d' ≤ S.left s)
    (hreads : ∀ b w, S.grammar.Reads r' (S.rest s) b w ↔ S.grammar.Reads r (S.rest s') b w)
    (hcalm : S.Calm r' (S.rest s) ↔ S.Calm r (S.rest s')) : S.Follows s (d + d') attr r' out := by
  have hstuck : S.Stuck r' (S.rest s) ↔ S.Stuck r (S.rest s') := by
    simp only [Stuck, hreads]
  match out, h with
  | .ok (_, s''), ⟨⟨hr, hc⟩, hinv, hd⟩ =>
    exact ⟨⟨(hreads _ _).mpr hr, hcalm.mpr hc⟩, hinv, by omega⟩
  | .error _, .inl ⟨he, hs, hc⟩ => exact .inl ⟨he, hstuck.mpr hs, hcalm.mpr hc⟩
  | .error _, .inr ⟨he, hc⟩ => exact .inr ⟨he, mt hcalm.mp hc⟩

theorem Follows.yes (hin : S.grammar.kindAt (S.rest s) offset ∈ types)
    (h : S.Follows s d attr y out) : S.Follows s d attr (.branch offset types y n) out :=
  h.step (show S.left s + 0 ≤ S.left s from Nat.le_refl _)
    (fun _ _ => Grammar.reads_branch_yes hin)
    (calm_congr fun _ _ => Grammar.meets_branch_yes hin)

theorem Follows.no (hout : S.grammar.kindAt (S.rest s) offset ∉ types)
    (h : S.Follows s d attr n out) : S.Follows s d attr (.branch offset types y n) out :=
  h.step (show S.left s + 0 ≤ S.left s from Nat.le_refl _)
    (fun _ _ => Grammar.reads_branch_no hout)
    (calm_congr fun _ _ => Grammar.meets_branch_no hout)

theorem Follows.token (hrest : S.rest s' = (S.rest s).tail) (hlt : S.left s' < S.left s)
    (hin : S.grammar.kindAt (S.rest s) 0 ∈ types)
    (hne : S.grammar.kindAt (S.rest s) 0 ≠ S.grammar.stop) (h : S.Follows s' d attr r out) :
    S.Follows s (d + 1) attr (.token types r) out := by
  apply h.step hlt
  · intro b w
    rw [hrest]
    exact ⟨fun hr => by cases hr with | token _ _ hr => exact hr, .token hin hne⟩
  · refine calm_congr fun n v => ?_
    rw [hrest]
    exact ⟨fun hm => hm.of_token.2, .token hin hne⟩

theorem Follows.any (hrest : S.rest s' = (S.rest s).tail) (hlt : S.left s' < S.left s)
    (hne : S.grammar.kindAt (S.rest s) 0 ≠ S.grammar.stop) (h : S.Follows s' d attr r out) :
    S.Follows s (d + 1) attr (.any r) out := by
  apply h.step hlt
  · intro b w
    rw [hrest]
    exact ⟨fun hr => by cases hr with | any _ hr => exact hr, .any hne⟩
  · refine calm_congr fun n v => ?_
    rw [hrest]
    exact ⟨fun hm => hm.of_any.2, .any hne⟩

theorem Follows.pass (hrest : S.rest s' = (S.rest s).tail) (h : S.Follows s' d attr r out) :
    S.Follows s d attr (.pass r) out := by
  have hle : S.left s' + 0 ≤ S.left s := by
    rw [left, hrest, left, List.length_tail]
    omega
  apply h.step hle
  · intro b w
    rw [hrest]
    exact ⟨fun hr => by cases hr with | pass hr => exact hr, .pass⟩
  · refine calm_congr fun n v => ?_
    rw [hrest]
    exact ⟨Grammar.Meets.of_pass, .pass⟩

theorem Follows.rejectToken {e : ε} (he : S.rejection e)
    (hout : S.grammar.kindAt (S.rest s) 0 ∉ types) :
    S.Follows s d attr (.token types r) (.error e : Except ε (α × σ)) :=
  .inl ⟨he, fun _ _ hr => by cases hr with | token hin _ _ => exact hout hin,
    fun _ _ hm => absurd hm.of_token.1 hout⟩

theorem Tracks.le (h : S.Tracks k d attr m r) (hj : j ≤ k) : S.Tracks j d attr m r :=
  fun s hs hleft => h s hs (hleft.trans hj)

theorem Tracks.weaken (h : S.Tracks k d attr m r) (hd : d' ≤ d) : S.Tracks k d' attr m r :=
  fun s hs hleft => (h s hs hleft).weaken hd

theorem Tracks.pure (a : α) (hb : attr a = b) :
    S.Tracks k 0 attr (Pure.pure a : Reader σ ε α) (.done b) := by
  intro s hs _
  subst hb
  exact ⟨⟨.done, calm_done⟩, hs, Nat.le_refl _⟩

theorem Tracks.throw {e : ε} (he : S.rejection e) :
    S.Tracks k d attr (throw e : Reader σ ε α) .fail :=
  fun _ _ _ => .inl ⟨he, nofun, calm_fail⟩

/-- A call of a symbol by way of its rule. -/
theorem Follows.call {n : N} (hn : ¬ S.Refused n (S.rest s))
    (h : S.Follows s d attr (S.grammar.rules n) out) : S.Follows s d attr (.call n .done) out := by
  apply h.step (show S.left s + 0 ≤ S.left s from Nat.le_refl _)
  · exact fun _ _ => Grammar.reads_call_done
  · rw [calm_call]
    exact ⟨fun h => h.2.1, fun h => ⟨hn, h, fun _ _ _ => calm_done⟩⟩

theorem Tracks.call {n : N} (hn : ∀ w, ¬ S.Refused n w)
    (h : S.Tracks k d attr m (S.grammar.rules n)) : S.Tracks k d attr m (.call n .done) :=
  fun s hs hleft => (h s hs hleft).call (hn _)

theorem Follows.bind {n : N} (h : S.Follows s d attr (.call n .done) (m s))
    (hf : ∀ a s', m s = .ok (a, s') → S.Inv s' → S.left s' + d ≤ S.left s →
      S.Follows s' d' attr' (next (attr a)) (f a s')) :
    S.Follows s (d' + d) attr' (.call n next) ((m >>= f) s) := by
  have hrun : (m >>= f) s = (m s >>= fun x => f x.1 x.2) := rfl
  rw [hrun]
  match hm : m s, h with
  | .ok (a, s'), ⟨⟨hr, hc⟩, hinv, hd⟩ =>
    obtain ⟨hhere, hwithin, -⟩ := calm_call.mp hc
    have hr := Grammar.reads_call_done.mp hr
    have hcalm : S.Calm (.call n next) (S.rest s) ↔ S.Calm (next (attr a)) (S.rest s') := by
      rw [calm_call]
      constructor
      · exact fun h => h.2.2 _ _ hr
      · refine fun h => ⟨hhere, hwithin, fun b u hu => ?_⟩
        obtain ⟨rfl, rfl⟩ := hu.unique hr
        exact h
    have hreads : ∀ b w, S.grammar.Reads (.call n next) (S.rest s) b w ↔
        S.grammar.Reads (next (attr a)) (S.rest s') b w := by
      intro b w
      constructor
      · intro h
        cases h with
        | call hn hr' =>
          obtain ⟨rfl, rfl⟩ := hn.unique hr
          exact hr'
      · exact .call hr
    show S.Follows s (d' + d) attr' (.call n next) (f a s')
    exact (hf a s' hm hinv hd).step hd hreads hcalm
  | .error e, .inl ⟨he, hs, hc⟩ =>
    have hs : S.Stuck (S.grammar.rules n) (S.rest s) :=
      fun b w hr => hs b w (Grammar.reads_call_done.mpr hr)
    obtain ⟨hhere, hwithin, -⟩ := calm_call.mp hc
    refine .inl ⟨he, fun b w h => ?_,
      calm_call.mpr ⟨hhere, hwithin, fun b u hu => absurd hu (hs b u)⟩⟩
    cases h with
    | call hn _ => exact hs _ _ hn
  | .error e, .inr ⟨he, hc⟩ =>
    refine .inr ⟨he, fun h => hc ?_⟩
    obtain ⟨hhere, hwithin, -⟩ := calm_call.mp h
    exact calm_call.mpr ⟨hhere, hwithin, fun _ _ _ => calm_done⟩

theorem Tracks.bind {n : N} (h : S.Tracks k d attr m (.call n .done))
    (hf : ∀ a j, j + d ≤ k → S.Tracks j d' attr' (f a) (next (attr a))) :
    S.Tracks k (d' + d) attr' (m >>= f) (.call n next) := by
  intro s hs hleft
  refine (h s hs hleft).bind fun a s' _ hs' hd => ?_
  exact hf a (S.left s') (by omega) s' hs' (Nat.le_refl _)

end Scheme

end Lib
