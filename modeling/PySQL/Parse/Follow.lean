import PySQL.Parse.Grammar
import PySQL.Parse.Statement

/-!
# The parser follows its grammar

A number is refused where `int` or `float` raises a ValueError.  Each method ends with a result, with
a ParseError, or at the first number that is refused, as the reading of its phrase says; the fuel
suffices where it exceeds the number of tokens left.
-/

namespace PySQL.Parse

open Lib Query

/-- The lexer puts an EOF at the end. -/
def Parser.Ended (p : Parser) : Prop := (p.tokens.getLast p.nonempty).type = .eof

/-- A number whose text `int` or `float` does not take. -/
def Refused (py : Py) : Phrase → List Lexeme → Prop
  | .integer, l :: _ => l.type = .integerLiteral ∧ py.parseInt (.str l.value) = none
  | .float, l :: _ => l.type = .floatLiteral ∧ py.parseFloat (.str l.value) = none
  | _, _ => False

def scheme (py : Py) : Scheme Parser ParserError Lexeme TokenType Phrase Bool where
  grammar := grammar
  rest := Parser.lexemes
  Inv := Parser.Ended
  Refused := Refused py
  rejection e := ∃ message token, e = .parseError message token
  refusal e := e = .valueError

/-- Whether an expression is a column. -/
def isColumn (e : Expr) : Bool := (columnOf e).isSome

/-- The attribute of most phrases. -/
def plain {α : Type} (_ : α) : Bool := false

abbrev Follows {α : Type} (py : Py) (p : Parser) (d : ℕ) (attr : α → Bool)
    (r : Phrase.Production) (out : Except ParserError (α × Parser)) : Prop :=
  (scheme py).Follows p d attr r out

abbrev Tracks {α : Type} (py : Py) (k d : ℕ) (attr : α → Bool) (m : ParserM α)
    (r : Phrase.Production) : Prop :=
  (scheme py).Tracks k d attr m r

/-- The method for a phrase. -/
abbrev Method {α : Type} (py : Py) (k d : ℕ) (attr : α → Bool) (m : ParserM α) (p : Phrase) : Prop :=
  Tracks py k d attr m (.call p .done)

section Helpers

open Phrase

variable {py : Py} {p : Parser} {k d d' : ℕ} {α β : Type} {attr : α → Bool} {attr' : β → Bool}
  {types : List TokenType} {type : TokenType} {r y n : Production}
  {out : Except ParserError (α × Parser)}

theorem kindAt_lexemes (hp : p.Ended) (n : ℕ) : grammar.kindAt p.lexemes n = (p.peek n).type := by
  rw [Grammar.kindAt, Parser.lexemes, List.getElem?_map, List.getElem?_drop, Parser.peek,
    List.getD_eq_getElem?_getD]
  cases p.tokens[p.pos + n]? with
  | none => exact hp.symm
  | some t => rfl

theorem lexemes_cons (hp : p.Ended) (h : p.current.type ≠ .eof) :
    p.lexemes = p.current.toLexeme :: p.lexemes.tail := by
  have hkind : grammar.kindAt p.lexemes 0 ≠ grammar.stop := by
    rw [kindAt_lexemes hp]
    exact h
  obtain ⟨l, hl, -⟩ := Grammar.kindAt_zero hkind
  rw [Parser.current_eq hl]
  exact hl

theorem kindAt_current (hp : p.Ended) :
    (scheme py).grammar.kindAt ((scheme py).rest p) 0 = p.current.type :=
  kindAt_lexemes hp 0

theorem rest_skip : (scheme py).rest (p.skip 1) = ((scheme py).rest p).tail := by
  show (p.skip 1).lexemes = p.lexemes.tail
  rw [Parser.lexemes_skip, List.drop_one]

theorem left_skip (py : Py) (hp : p.Ended) (h : p.current.type ≠ .eof) :
    (scheme py).left (p.skip 1) < (scheme py).left p := by
  rw [Scheme.left, Scheme.left, rest_skip]
  show p.lexemes.tail.length < p.lexemes.length
  rw [lexemes_cons hp h]
  exact Nat.lt_succ_self _

theorem follows_token (hp : p.Ended) (hin : p.current.type ∈ types) (heof : .eof ∉ types)
    (h : Follows py (p.skip 1) d attr r out) : Follows py p (d + 1) attr (.token types r) out := by
  have hne : p.current.type ≠ .eof := fun heq => heof (heq ▸ hin)
  refine Scheme.Follows.token rest_skip (left_skip py hp hne) ?_ ?_ h
  · rw [kindAt_current hp]
    exact hin
  · rw [kindAt_current hp]
    exact hne

theorem follows_yes (hp : p.Ended) (hin : p.current.type ∈ types)
    (h : Follows py p d attr y out) : Follows py p d attr (ifAt types y n) out := by
  refine Scheme.Follows.yes ?_ h
  rw [kindAt_current hp]
  exact hin

theorem follows_no (hp : p.Ended) (hout : p.current.type ∉ types)
    (h : Follows py p d attr n out) : Follows py p d attr (ifAt types y n) out := by
  refine Scheme.Follows.no ?_ h
  rw [kindAt_current hp]
  exact hout

/-- Which of the two rules counts where the current token is known. -/
theorem follows_ifAt (hp : p.Ended) {t : TokenType} (ht : p.current.type = t)
    (h : if t ∈ types then Follows py p d attr y out else Follows py p d attr n out) :
    Follows py p d attr (ifAt types y n) out := by
  subst ht
  split at h
  · next hin => exact follows_yes hp hin h
  · next hout => exact follows_no hp hout h

theorem follows_take (hp : p.Ended) (hin : p.current.type ∈ types) (heof : .eof ∉ types)
    (h : Follows py (p.skip 1) d attr y out) : Follows py p (d + 1) attr (ifTok types y n) out :=
  follows_yes hp hin (follows_token hp hin heof h)

theorem matchToken_true (h : p.current.type ∈ types) :
    matchToken types p = .ok (true, p.skip 1) := by
  show (if p.current.type ∈ types then _ else _ : ParserM Bool) p = _
  rw [if_pos h]
  rfl

theorem matchToken_false (h : p.current.type ∉ types) : matchToken types p = .ok (false, p) := by
  show (if p.current.type ∈ types then _ else _ : ParserM Bool) p = _
  rw [if_neg h]
  rfl

theorem expect_type (h : p.current.type = type) (message : String) :
    expect type message p = .ok (p.current, p.skip 1) := by
  show (if p.current.type ≠ type then _ else advance : ParserM Token) p = _
  rw [if_neg (not_not_intro h)]
  rfl

theorem expect_other (h : p.current.type ≠ type) (message : String) :
    ∃ msg, expect type message p = .error (.parseError msg p.current) := by
  refine ⟨if message = "" then
    "Expected " ++ type.name ++ ", got " ++ p.current.type.name else message, ?_⟩
  show (if p.current.type ≠ type then _ else advance : ParserM Token) p = _
  rw [if_pos h]
  rfl

theorem follows_rejectTok (h : p.current.type ≠ type) (hp : p.Ended) (message : String) :
    Follows py p d attr (tok type r) (.error (.parseError message p.current)) := by
  have hreject : (scheme py).rejection (.parseError message p.current) := ⟨message, p.current, rfl⟩
  apply Scheme.Follows.rejectToken hreject
  rw [kindAt_current hp]
  exact fun hin => h (List.mem_singleton.mp hin)

theorem tracks_reject (message : String) (token : Token) :
    Tracks py k d attr (throw (.parseError message token)) .fail :=
  Scheme.Tracks.throw ⟨message, token, rfl⟩

/-- A method of its rule's phrase. -/
theorem Tracks.method {m : ParserM α} {p : Phrase} (hp : ∀ w, ¬ Refused py p w)
    (h : Tracks py k d attr m (rules p)) : Method py k d attr m p :=
  Scheme.Tracks.call hp h

/-- What a phrase is called by in a state, by way of its rule. -/
theorem follows_call {q : Phrase} (hq : ∀ w, ¬ Refused py q w)
    (h : Follows py p d attr (rules q) out) : Follows py p d attr (.call q .done) out :=
  Scheme.Follows.call (hq _) h

theorem Method.le {m : ParserM α} {p : Phrase} {j : ℕ} (h : Method py k d attr m p) (hj : j ≤ k) :
    Method py j d attr m p :=
  Scheme.Tracks.le h hj

/-- A method first; what it takes, the rest need not take. -/
theorem Method.bind {m : ParserM α} {f : α → ParserM β} {p : Phrase}
    {next : Bool → Production} (h : Method py k d attr m p)
    (hf : ∀ a j, j + d ≤ k → Tracks py j (d' - d) attr' (f a) (next (attr a))) :
    Tracks py k d' attr' (m >>= f) (.call p next) :=
  (Scheme.Tracks.bind h hf).weaken (by omega)

/-- A method whose attribute does not matter. -/
theorem Method.seq {m : ParserM α} {f : α → ParserM β} {p : Phrase} (h : Method py k d attr m p)
    (hf : ∀ a j, j + d ≤ k → Tracks py j (d' - d) attr' (f a) r) :
    Tracks py k d' attr' (m >>= f) (p.seq r) :=
  h.bind hf

/-- The last method of a rule. -/
theorem Method.last {m : ParserM α} {p : Phrase} (h : Method py k d attr m p) (hd : d' ≤ d)
    {g : α → β} (hg : ∀ a, attr' (g a) = false) :
    Tracks py k d' attr' (m >>= fun a => pure (g a)) p.seq := by
  refine h.seq fun a j _ => ?_
  rw [Nat.sub_eq_zero_of_le hd]
  exact Scheme.Tracks.pure _ (hg a)

theorem Method.map {m : ParserM α} {q : Phrase} (h : Method py k d plain m q) (g : α → β) :
    Method py k d plain (m >>= fun a => pure (g a)) q := by
  refine Method.bind h fun a j _ => ?_
  rw [Nat.sub_self]
  exact Scheme.Tracks.pure (g a) rfl

theorem Method.self {m : ParserM α} {p : Phrase} (h : Method py k d attr m p)
    (hd : d' ≤ d) : Tracks py k d' plain m p.seq := by
  have hlast : Tracks py k d' plain (m >>= fun a => pure a) p.seq := h.last hd fun _ => rfl
  rw [bind_pure] at hlast
  exact hlast

theorem tracks_tok (htype : type ≠ .eof) {message : String} {f : Token → ParserM β}
    (hf : ∀ token j, j + 1 ≤ k → Tracks py j (d - 1) attr' (f token) r) :
    Tracks py k d attr' (expect type message >>= f) (tok type r) := by
  intro p hp hleft
  by_cases h : p.current.type = type
  · rw [Reader.bind_ok (expect_type h message)]
    have hlt := left_skip py hp (h ▸ htype)
    have hfollows := hf p.current ((scheme py).left (p.skip 1)) (by omega) (p.skip 1) hp (Nat.le_refl _)
    refine (follows_token hp (List.mem_singleton.mpr h) ?_ hfollows).weaken (by omega)
    simpa [eq_comm] using htype
  · obtain ⟨msg, hexpect⟩ := expect_other h message
    rw [Reader.bind_error hexpect]
    exact follows_rejectTok h hp msg

/-- The current token is taken, and the rest goes on behind it. -/
theorem follows_taken (hp : p.Ended) (hleft : (scheme py).left p ≤ k)
    (hin : p.current.type ∈ types) (heof : .eof ∉ types) {f : Token → ParserM β}
    (hf : ∀ j, j + 1 ≤ k → Tracks py j (d - 1) attr' (f p.current) y) :
    Follows py p d attr' (ifTok types y n) ((advance >>= f) p) := by
  have hlt := left_skip py hp fun heq => heof (heq ▸ hin)
  have hfollows := hf ((scheme py).left (p.skip 1)) (by omega) (p.skip 1) hp (Nat.le_refl _)
  exact (follows_take hp hin heof hfollows).weaken (by omega)

/-- A number: refused where its text is. -/
theorem follows_number {q : Phrase} (hp : p.Ended) (htype : p.current.type = type)
    (heof : type ≠ .eof) (hrule : rules q = tok type) {result : Option α}
    (hrefused : Refused py q p.lexemes ↔ result = none) (hattr : ∀ a ∈ result, attr a = false) :
    Follows py p 1 attr (.call q .done)
      (result.elim (.error .valueError) fun a => .ok (a, p.skip 1)) := by
  cases result with
  | none => exact .inr ⟨rfl, fun hcalm => (Scheme.calm_call.mp hcalm).1 (hrefused.mpr rfl)⟩
  | some a =>
    refine Scheme.Follows.call (fun h => Option.some_ne_none a (hrefused.mp h)) ?_
    show Follows py p 1 attr (rules q) (.ok (a, p.skip 1))
    have hpure : Tracks py ((scheme py).left (p.skip 1)) 0 attr (pure a) nothing :=
      Scheme.Tracks.pure a (hattr a rfl)
    rw [hrule]
    apply follows_token hp (List.mem_singleton.mpr htype) _ (hpure (p.skip 1) hp (Nat.le_refl _))
    simpa [eq_comm] using heof

theorem refused_integer (hp : p.Ended) (h : p.current.type = .integerLiteral) :
    Refused py .integer p.lexemes ↔ py.parseInt (.str p.current.value) = none := by
  rw [lexemes_cons hp (by rw [h]; decide)]
  exact and_iff_right h

theorem refused_float (hp : p.Ended) (h : p.current.type = .floatLiteral) :
    Refused py .float p.lexemes ↔ py.parseFloat (.str p.current.value) = none := by
  rw [lexemes_cons hp (by rw [h]; decide)]
  exact and_iff_right h

/-- A method where this is the current token. -/
def TracksAt (py : Py) (k d : ℕ) (attr : α → Bool) (token : Token) (m : ParserM α)
    (r : Production) : Prop :=
  ∀ p : Parser, p.Ended → (scheme py).left p ≤ k → p.current = token → Follows py p d attr r (m p)

theorem tracks_look {f : Token → ParserM β}
    (hf : ∀ token, TracksAt py k d attr' token (f token) r) : Tracks py k d attr' (current >>= f) r :=
  fun p hp hleft => hf p.current p hp hleft rfl

/-- `if self._match(..)` -/
theorem follows_ifTok (hp : p.Ended) (hleft : (scheme py).left p ≤ k) (heof : .eof ∉ types)
    {A B : ParserM β} (hA : ∀ j, j + 1 ≤ k → Tracks py j (d - 1) attr' A y)
    (hB : p.current.type ∉ types → Follows py p d attr' n (B p)) :
    Follows py p d attr' (ifTok types y n)
      ((matchToken types >>= fun found => if found = true then A else B) p) := by
  by_cases h : p.current.type ∈ types
  · rw [Reader.bind_ok (matchToken_true h), if_pos rfl]
    have hlt := left_skip py hp fun heq => heof (heq ▸ h)
    have hfollows := hA ((scheme py).left (p.skip 1)) (by omega) (p.skip 1) hp (Nat.le_refl _)
    exact (follows_take hp h heof hfollows).weaken (by omega)
  · rw [Reader.bind_ok (matchToken_false h), if_neg Bool.false_ne_true]
    exact follows_no hp h (hB h)

theorem tracks_ifTok (heof : .eof ∉ types) {A B : ParserM β}
    (hA : ∀ j, j + 1 ≤ k → Tracks py j (d - 1) attr' A y) (hB : Tracks py k d attr' B n) :
    Tracks py k d attr' (matchToken types >>= fun found => if found = true then A else B)
      (ifTok types y n) :=
  fun p hp hleft => follows_ifTok hp hleft heof hA fun _ => hB p hp hleft

/-- `if self._check(..)` -/
theorem tracks_ifAt {A B : ParserM β} (hA : Tracks py k d attr' A y)
    (hB : Tracks py k d attr' B n) :
    Tracks py k d attr' (check types >>= fun found => if found = true then A else B)
      (ifAt types y n) := by
  intro p hp hleft
  have hrun : (check types >>= fun found => if found = true then A else B) p =
      (if decide (p.current.type ∈ types) = true then A else B) p := rfl
  rw [hrun]
  by_cases h : p.current.type ∈ types
  · rw [if_pos (decide_eq_true h)]
    exact follows_yes hp h (hA p hp hleft)
  · rw [if_neg (by simpa using h)]
    exact follows_no hp h (hB p hp hleft)

/-- `if self._check(..)` and then `self._advance()` -/
theorem tracks_ifAdvance (heof : .eof ∉ types) {f : Token → ParserM β} {B : ParserM β}
    (hA : ∀ token j, j + 1 ≤ k → Tracks py j (d - 1) attr' (f token) y)
    (hB : Tracks py k d attr' B n) :
    Tracks py k d attr' (check types >>= fun found => if found = true then advance >>= f else B)
      (ifTok types y n) := by
  intro p hp hleft
  have hrun : (check types >>= fun found => if found = true then advance >>= f else B) p =
      (if decide (p.current.type ∈ types) = true then advance >>= f else B) p := rfl
  rw [hrun]
  by_cases h : p.current.type ∈ types
  · rw [if_pos (decide_eq_true h)]
    have hlt := left_skip py hp fun heq => heof (heq ▸ h)
    have hfollows := hA p.current ((scheme py).left (p.skip 1)) (by omega) (p.skip 1) hp (Nat.le_refl _)
    exact (follows_take hp h heof hfollows).weaken (by omega)
  · rw [if_neg (by simpa using h)]
    exact follows_no hp h (hB p hp hleft)

/-- `self._match(..)` as an optional part; the attribute says whether it was there. -/
theorem method_optional (heof : .eof ∉ types) :
    Method py k 0 id (matchToken types) (.optional types) := by
  apply Tracks.method (fun _ => id)
  have hif : Tracks py k 0 id
      (matchToken types >>= fun found => if found = true then pure true else pure false)
      (rules (.optional types)) :=
    tracks_ifTok heof (fun j _ => Scheme.Tracks.pure _ rfl)
      (Scheme.Tracks.pure _ rfl)
  have hself : (matchToken types >>= fun found => if found = true then pure true else pure false) =
      matchToken types := by
    conv_rhs => rw [← bind_pure (matchToken types)]
    congr 1
    funext found
    cases found <;> rfl
  rw [hself] at hif
  exact hif

theorem tracks_pure {a : α} (ha : attr a = false) : Tracks py k 0 attr (pure a) nothing :=
  Scheme.Tracks.pure a ha

end Helpers

end PySQL.Parse
