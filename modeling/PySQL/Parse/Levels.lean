import PySQL.Parse.Print

/-!
# What the levels of the grammar read

Which tokens an expression of a level starts with, which tokens it would go on with, and how each
method passes on what the method of the next level reads.
-/

namespace PySQL.Parse

open Lib Query

/-- The level of the operator that a token continues an expression with. -/
def infixLevel : TokenType → Option ℕ
  | .kwOr => some 0
  | .kwAnd => some 1
  | .kwIs | .kwNot | .kwBetween | .kwIn | .kwLike => some 3
  | .equals | .notEquals | .less | .greater | .lessEquals | .greaterEquals => some 3
  | .plus | .minus | .concat => some 4
  | .star | .slash | .percent => some 5
  | .lparen | .dot => some 7
  | _ => none

/-- The tightest level of the expressions that a token begins. -/
def startLevel : TokenType → Option ℕ
  | .kwNot => some 2
  | .minus => some 6
  | .nullLiteral | .booleanLiteral | .integerLiteral | .floatLiteral | .stringLiteral => some 7
  | .kwCase | .kwCast | .kwCount | .kwSum | .kwAvg | .kwMin | .kwMax => some 7
  | .lparen | .identifier | .quotedIdentifier | .star => some 7
  | _ => none

/-- An expression of the level is over in front of the token. -/
def Stops (k : ℕ) (l : Lexeme) : Prop := ∀ m, infixLevel l.type = some m → m < k

def Starts (k : ℕ) (l : Lexeme) : Prop := ∃ m, startLevel l.type = some m ∧ k ≤ m

variable {k k' : ℕ} {l : Lexeme}

theorem Stops.mono (h : Stops k l) (hk : k ≤ k') : Stops k' l :=
  fun m hm => (h m hm).trans_le hk

theorem Starts.mono (h : Starts k' l) (hk : k ≤ k') : Starts k l := by
  obtain ⟨m, hm, hle⟩ := h
  exact ⟨m, hm, hk.trans hle⟩

theorem stops_of_none (h : infixLevel l.type = none) (k : ℕ) : Stops k l := by
  intro m hm
  rw [h] at hm
  cases hm

theorem Stops.not_mem {types : List TokenType} (h : Stops k l)
    (htypes : ∀ type ∈ types, ∃ m ∈ infixLevel type, k ≤ m) : l.type ∉ types := by
  intro hmem
  obtain ⟨m, hm, hle⟩ := htypes _ hmem
  have hlt := h m hm
  omega

theorem Stops.ne {type : TokenType} {m : ℕ} (h : Stops k l) (htype : infixLevel type = some m)
    (hk : k ≤ m) : l.type ≠ type := by
  intro heq
  have hlt := h m (heq ▸ htype)
  omega

theorem Starts.not_mem {types : List TokenType} (h : Starts k l)
    (htypes : ∀ type ∈ types, ∀ m ∈ startLevel type, m < k) : l.type ∉ types := by
  intro hmem
  obtain ⟨m, hm, hle⟩ := h
  have hlt := htypes _ hmem m hm
  omega

/-! ## One step of a reader -/

section Steps

variable {ι α β : Type} {F : Filter ι} {q : ι → ParserM β} {b : β} {v : List Lexeme} {stop : Lexeme → Prop}

/-- Consuming a token whose place in the text does not matter. -/
theorem reads_cons {p : ParserM α} {f : α → ι → ParserM β}
    (hp : ∀ s ls, s.lexemes = l :: ls → ∃ a, p s = .ok (a, s.skip 1) ∧ f a = q)
    (hq : Reads Parser.tape F q v b stop) :
    Reads Parser.tape F (fun n => p >>= fun x => f x n) (l :: v) b stop := by
  filter_upwards [hq] with n hq s t rest hs ht
  obtain ⟨a, ha, hf⟩ := hp s _ hs
  rw [Reader.bind_ok ha, hf]
  have hrest : (s.skip 1).lexemes = v ++ t :: rest := by
    rw [Parser.lexemes_skip, show s.lexemes = l :: (v ++ t :: rest) from hs, List.drop_one,
      List.tail_cons]
  rw [hq _ t rest hrest ht, List.length_cons, Parser.tape_skip, Parser.tape_skip,
    Parser.skip_skip, Nat.add_comm]

/-- Looking at the next token, which stays. -/
theorem reads_look {p : ParserM α} {f : α → ι → ParserM β} {next : Lexeme → Prop}
    (hp : ∀ s u us, s.lexemes = u :: us → next u → ∃ a, p s = .ok (a, s) ∧ f a = q)
    (hq : Reads Parser.tape F q v b stop) (hnext : Before next v stop) :
    Reads Parser.tape F (fun n => p >>= fun x => f x n) v b stop := by
  filter_upwards [hq] with n hq s t rest hs ht
  obtain ⟨u, us, hu, hstop⟩ := hnext.next ht rest
  obtain ⟨a, ha, hf⟩ := hp s u us (hu ▸ hs) hstop
  rw [Reader.bind_ok ha, hf]
  exact hq s t rest hs ht

theorem reads_expect {type : TokenType} {value : String} (message : String)
    (hq : Reads Parser.tape F q v b stop) :
    Reads Parser.tape F (fun n => expect type message >>= fun _ => q n) (⟨type, value⟩ :: v) b
      stop :=
  reads_cons (fun _ _ hs => ⟨_, expect_ok hs message, rfl⟩) hq

theorem reads_advance (hq : Reads Parser.tape F q v b stop) :
    Reads Parser.tape F (fun n => advance >>= fun _ => q n) (l :: v) b stop :=
  reads_cons (fun _ _ _ => ⟨_, rfl, rfl⟩) hq

theorem reads_value {f : String → ι → ParserM β} (hq : Reads Parser.tape F (f l.value) v b stop) :
    Reads Parser.tape F (fun n => advanceValue >>= fun value => f value n) (l :: v) b stop :=
  reads_cons (fun _ _ hs => ⟨_, advanceValue_eq hs, rfl⟩) hq

theorem reads_match {types : List TokenType} {f : Bool → ι → ParserM β} (hl : l.type ∈ types)
    (hq : Reads Parser.tape F (f true) v b stop) :
    Reads Parser.tape F (fun n => matchToken types >>= fun found => f found n) (l :: v) b stop :=
  reads_cons (fun _ _ hs => ⟨_, matchToken_of_mem hs hl, rfl⟩) hq

theorem reads_matchNot {types : List TokenType} {f : Bool → ι → ParserM β}
    (hq : Reads Parser.tape F (f false) v b stop) (hnext : Before (fun u => u.type ∉ types) v stop) :
    Reads Parser.tape F (fun n => matchToken types >>= fun found => f found n) v b stop :=
  reads_look (fun _ _ _ hs hu => ⟨_, matchToken_of_not_mem hs hu, rfl⟩) hq hnext

section Branches

variable {types : List TokenType} {yes no : ι → ParserM β}

theorem reads_ifMatch (hl : l.type ∈ types) (hq : Reads Parser.tape F yes v b stop) :
    Reads Parser.tape F (fun n => matchToken types >>= fun found => if found then yes n else no n)
      (l :: v) b stop :=
  reads_cons (fun _ _ hs => ⟨_, matchToken_of_mem hs hl, rfl⟩) hq

theorem reads_ifNoMatch (hq : Reads Parser.tape F no v b stop)
    (hnext : Before (fun u => u.type ∉ types) v stop) :
    Reads Parser.tape F (fun n => matchToken types >>= fun found => if found then yes n else no n)
      v b stop :=
  reads_look (fun _ _ _ hs hu => ⟨_, matchToken_of_not_mem hs hu, rfl⟩) hq hnext

theorem reads_ifCheck (hq : Reads Parser.tape F yes v b stop)
    (hnext : Before (fun u => u.type ∈ types) v stop) :
    Reads Parser.tape F (fun n => check types >>= fun found => if found then yes n else no n)
      v b stop := by
  refine reads_look (fun s u us hs hu => ⟨true, ?_, rfl⟩) hq hnext
  rw [check_eq hs, decide_eq_true hu]

theorem reads_ifNoCheck (hq : Reads Parser.tape F no v b stop)
    (hnext : Before (fun u => u.type ∉ types) v stop) :
    Reads Parser.tape F (fun n => check types >>= fun found => if found then yes n else no n)
      v b stop := by
  refine reads_look (fun s u us hs hu => ⟨false, ?_, rfl⟩) hq hnext
  rw [check_eq hs, decide_eq_false hu]

end Branches

theorem reads_currentType {f : TokenType → ι → ParserM β} {next : Lexeme → Prop}
    (hf : ∀ u, next u → f u.type = q) (hq : Reads Parser.tape F q v b stop)
    (hnext : Before next v stop) :
    Reads Parser.tape F (fun n => currentType >>= fun type => f type n) v b stop :=
  reads_look (fun _ u _ hs hu => ⟨_, currentType_eq hs, hf u hu⟩) hq hnext

end Steps

/-! ## Chains of operators -/

section Chain

variable {op : TokenType → Option BinaryOpType} {operand : ℕ → ParserM Expr} {w v : List Lexeme}
  {e right : Expr} {o : BinaryOpType} {stop stop' : Lexeme → Prop}

/-- The word leads into the loop, with `e` to the left of what follows. -/
def Enters (op : TokenType → Option BinaryOpType) (operand : ℕ → ParserM Expr) (w : List Lexeme)
    (e : Expr) (stop : Lexeme → Prop) : Prop :=
  ∃ j, ∀ᶠ n in Filter.atTop, ∀ s t rest, s.lexemes = w ++ t :: rest → stop t →
    (operand n >>= binaryLoop op (operand n) n) s =
      binaryLoop op (operand n) (n - j) e (s.skip w.length)

theorem Enters.of_reads (h : Reads Parser.tape .atTop operand w e stop) : Enters op operand w e stop := by
  use 0
  filter_upwards [h] with n hn s t rest hs ht
  rw [Reader.bind_ok (hn s t rest hs ht)]
  rfl

theorem binaryLoop_some {n : ℕ} {p : Parser} {ls : List Lexeme} {read : ParserM Expr}
    (hp : p.lexemes = l :: ls) (hl : op l.type = some o) (left : Expr) :
    binaryLoop op read (n + 1) left p =
      (read >>= fun right => binaryLoop op read n (.binaryOp o left right)) (p.skip 1) := by
  rw [binaryLoop, Reader.bind_ok (currentType_eq hp)]
  simp only [hl]
  rfl

theorem binaryLoop_none {n : ℕ} {p : Parser} {ls : List Lexeme} {read : ParserM Expr}
    (hp : p.lexemes = l :: ls) (hl : op l.type = none) (left : Expr) :
    binaryLoop op read (n + 1) left p = .ok (left, p) := by
  rw [binaryLoop, Reader.bind_ok (currentType_eq hp)]
  simp only [hl]
  rfl

/-- One more operator and its right operand. -/
theorem Enters.step (he : Enters op operand w e stop) (hl : op l.type = some o) (hstop : stop l)
    (hr : Reads Parser.tape .atTop operand v right stop) :
    Enters op operand (w ++ l :: v) (.binaryOp o e right) stop := by
  obtain ⟨j, hj⟩ := he
  use j + 1
  filter_upwards [hj, hr, Filter.eventually_gt_atTop j] with n hn hr hlt s t rest hs ht
  rw [List.append_assoc, List.cons_append] at hs
  have hrest : (s.skip w.length).lexemes = l :: (v ++ t :: rest) := by
    rw [Parser.lexemes_skip, hs, List.drop_left]
  have hrest' : ((s.skip w.length).skip 1).lexemes = v ++ t :: rest := by
    rw [Parser.lexemes_skip, hrest, List.drop_one, List.tail_cons]
  have hfuel : n - j = n - (j + 1) + 1 := by omega
  rw [hn s l _ hs hstop, hfuel, binaryLoop_some hrest hl, Reader.bind_ok (hr _ t rest hrest' ht)]
  simp only [Parser.tape_skip, Parser.skip_skip, List.length_append, List.length_cons]
  congr 2
  omega

theorem Enters.reads (he : Enters op operand w e stop)
    (hstop : ∀ t, stop' t → stop t ∧ op t.type = none) :
    Reads Parser.tape .atTop (fun n => operand n >>= binaryLoop op (operand n) n) w e stop' := by
  obtain ⟨j, hj⟩ := he
  filter_upwards [hj, Filter.eventually_gt_atTop j] with n hn hlt s t rest hs ht
  have hrest : (s.skip w.length).lexemes = t :: rest := by
    rw [Parser.lexemes_skip, show s.lexemes = w ++ t :: rest from hs, List.drop_left]
  have hfuel : n - j = n - (j + 1) + 1 := by omega
  rw [hn s t rest hs (hstop t ht).1, hfuel, binaryLoop_none hrest (hstop t ht).2]
  rfl

end Chain

/-! ## Prefix operators -/

section Prefixes

variable {type : TokenType} {op : UnaryOpType} {tighter : ℕ → ParserM Expr} {w : List Lexeme}
  {e : Expr} {stop : Lexeme → Prop}

theorem unaryLoop_inner (h : Reads Parser.tape .atTop tighter w e stop)
    (hw : Before (fun u => u.type ∉ [type]) w stop) :
    LoopReads Parser.tape (fun n m => unaryLoop type op (tighter n) m) w e stop :=
  LoopReads.of_turn (reads_ifNoMatch h.inLoop hw)

theorem unaryLoop_step
    (h : LoopReads Parser.tape (fun n m => unaryLoop type op (tighter n) m) w e stop)
    (hl : l.type ∈ [type]) :
    LoopReads Parser.tape (fun n m => unaryLoop type op (tighter n) m) (l :: w) (.unaryOp op e)
      stop := by
  apply LoopReads.of_turn
  exact reads_ifMatch hl (Reads.map h _)

end Prefixes

/-! ## The levels -/

section Levels

variable (py : Py) (select : ParserM Unit)

/-- The method of each level. -/
def parseAt (k n : ℕ) : ParserM Expr :=
  let expression := parseExpression py select n
  match k with
  | 0 => parseOrExpr py select expression n
  | 1 => parseAndExpr py select expression n
  | 2 => parseNotExpr py select expression n
  | 3 => parseComparison py select expression n
  | 4 => parseAddition py select expression n
  | 5 => parseMultiplication py select expression n
  | 6 => parseUnary py select expression n
  | _ => parsePrimary py select expression n

/-- The operators of the levels that are chains of operators. -/
def chainOp : ℕ → Option (TokenType → Option BinaryOpType)
  | 0 => some orOp
  | 1 => some andOp
  | 4 => some additionOp
  | 5 => some multiplicationOp
  | _ => none

variable {py select} {w : List Lexeme} {e : Expr} {op : TokenType → Option BinaryOpType}

theorem infixLevel_of_chainOp {type : TokenType} {o : BinaryOpType} (hop : chainOp k = some op)
    (h : op type = some o) : infixLevel type = some k := by
  unfold chainOp at hop
  split at hop
  · cases hop
    unfold orOp at h
    split at h <;> first | rfl | cases h
  · cases hop
    unfold andOp at h
    split at h <;> first | rfl | cases h
  · cases hop
    unfold additionOp at h
    split at h <;> first | rfl | cases h
  · cases hop
    unfold multiplicationOp at h
    split at h <;> first | rfl | cases h
  · cases hop

theorem chainOp_opLexeme {o : BinaryOpType} (hop : chainOp (opLevel o) = some op) :
    op (opLexeme o).type = some o := by
  cases o <;> cases hop <;> rfl

theorem Stops.chainOp_eq_none (h : Stops k l) (hop : chainOp k = some op) : op l.type = none := by
  cases ho : op l.type with
  | none => rfl
  | some o => exact absurd (h k (infixLevel_of_chainOp hop ho)) (lt_irrefl k)

theorem parseAt_chain (hop : chainOp k = some op) : parseAt py select k =
    fun n => parseAt py select (k + 1) n >>= binaryLoop op (parseAt py select (k + 1) n) n := by
  unfold chainOp at hop
  split at hop <;> cases hop <;> rfl

variable (py select)

/-- How the method of the level gets to the expression: an operator that goes on is read after it in
the loop of its level, a prefix operator before it. -/
def Climbs (k : ℕ) (w : List Lexeme) (e : Expr) : Prop :=
  match k with
  | 0 => Enters orOp (parseAt py select 1) w e (Stops 1)
  | 1 => Enters andOp (parseAt py select 2) w e (Stops 2)
  | 2 => LoopReads Parser.tape (fun n m => unaryLoop .kwNot .not (parseAt py select 3 n) m) w e
    (Stops 3)
  | 4 => Enters additionOp (parseAt py select 5) w e (Stops 5)
  | 5 => Enters multiplicationOp (parseAt py select 6) w e (Stops 6)
  | 6 => LoopReads Parser.tape (fun n m => unaryLoop .minus .negate (parseAt py select 7 n) m) w e
    (Stops 7)
  | k => Reads Parser.tape .atTop (parseAt py select k) w e (Stops k)

variable {py select}

theorem climbs_chain (hop : chainOp k = some op) :
    Climbs py select k w e = Enters op (parseAt py select (k + 1)) w e (Stops (k + 1)) := by
  unfold chainOp at hop
  split at hop <;> cases hop <;> rfl

theorem Enters.reads_chain (hop : chainOp k = some op)
    (h : Enters op (parseAt py select (k + 1)) w e (Stops (k + 1))) :
    Reads Parser.tape .atTop (parseAt py select k) w e (Stops k) := by
  rw [parseAt_chain hop]
  exact h.reads fun t ht => ⟨ht.mono k.le_succ, ht.chainOp_eq_none hop⟩

theorem Climbs.reads (h : Climbs py select k w e) :
    Reads Parser.tape .atTop (parseAt py select k) w e (Stops k) := by
  unfold Climbs at h
  split at h
  · exact Enters.reads_chain rfl h
  · exact Enters.reads_chain rfl h
  · exact (LoopReads.reads h).weaken fun t ht => ht.mono (Nat.le_succ 2)
  · exact Enters.reads_chain rfl h
  · exact Enters.reads_chain rfl h
  · exact (LoopReads.reads h).weaken fun t ht => ht.mono (Nat.le_succ 6)
  · exact h

variable (py select)

/-- The method of the level reads the word and gives the expression. -/
structure ReadsAt (k : ℕ) (w : List Lexeme) (e : Expr) : Prop where
  starts : ∃ u us, w = u :: us ∧ Starts k u
  climbs : Climbs py select k w e

variable {py select}

theorem ReadsAt.reads (h : ReadsAt py select k w e) :
    Reads Parser.tape .atTop (parseAt py select k) w e (Stops k) :=
  h.climbs.reads

/-- What holds of the tokens that can begin an expression holds of the first. -/
theorem ReadsAt.before (h : ReadsAt py select k w e) {next stop : Lexeme → Prop}
    (hnext : ∀ u, Starts k u → next u) : Before next w stop := by
  obtain ⟨u, us, rfl, hu⟩ := h.starts
  exact hnext u hu

theorem ReadsAt.before_append (h : ReadsAt py select k w e) {next stop : Lexeme → Prop}
    (hnext : ∀ u, Starts k u → next u) (v : List Lexeme) : Before next (w ++ v) stop := by
  obtain ⟨u, us, rfl, hu⟩ := h.starts
  exact hnext u hu

theorem matchNegation_false {p : Parser} {ls : List Lexeme} (hp : p.lexemes = l :: ls)
    (hl : l.type ≠ .kwNot) : matchNegation p = .ok (false, p) := by
  unfold matchNegation
  rw [Reader.bind_ok (check_eq hp)]
  simp only [List.mem_singleton, hl, decide_false, Bool.false_eq_true, ↓reduceIte]
  rfl

theorem infixLevel_of_comparisonOp {type : TokenType} {o : BinaryOpType}
    (h : comparisonOp type = some o) : infixLevel type = some 3 := by
  unfold comparisonOp at h
  split at h <;> first | rfl | cases h

theorem comparisonOp_eq_none (h : Stops 3 l) : comparisonOp l.type = none := by
  cases ho : comparisonOp l.type with
  | none => rfl
  | some o => exact absurd (h 3 (infixLevel_of_comparisonOp ho)) (lt_irrefl 3)

/-- No operator follows. -/
theorem reads_comparisonTail_nil (left : Expr) :
    Reads Parser.tape .atTop (fun n => parseComparisonTail py select (parseExpression py select n) n left)
      [] left (Stops 3) := by
  unfold parseComparisonTail
  apply reads_ifNoMatch _ (.nil fun t (ht : Stops 3 t) => ht.not_mem (by decide))
  refine reads_look (fun s u us hs hu => ⟨false, ?_, rfl⟩) ?_ (.nil fun t (ht : Stops 3 t) => ht)
  · exact matchNegation_false hs (hu.ne rfl (le_refl 3))
  apply reads_ifNoMatch _ (.nil fun t (ht : Stops 3 t) => ht.not_mem (by decide))
  apply reads_ifNoMatch _ (.nil fun t (ht : Stops 3 t) => ht.not_mem (by decide))
  apply reads_ifNoMatch _ (.nil fun t (ht : Stops 3 t) => ht.not_mem (by decide))
  refine reads_currentType (fun u hu => ?_) Reads.pure (.nil fun t ht => ht)
  rw [comparisonOp_eq_none hu]

/-- What the method of a level reads, the methods of the looser levels read too. -/
theorem ReadsAt.up (h : ReadsAt py select (k + 1) w e) (hk : k < 7) : ReadsAt py select k w e := by
  obtain ⟨u, us, hw, hu⟩ := h.starts
  refine ⟨⟨u, us, hw, hu.mono k.le_succ⟩, ?_⟩
  have hreads := h.reads
  have hne : w ≠ [] := hw ▸ List.cons_ne_nil u us
  interval_cases k
  · exact Enters.of_reads hreads
  · exact Enters.of_reads hreads
  · apply unaryLoop_inner hreads
    exact h.before fun u hu => hu.not_mem (by decide)
  · have hbind : Reads Parser.tape .atTop (parseAt py select 3) (w ++ []) e (Stops 3) :=
      Reads.bind hreads (reads_comparisonTail_nil e) (.nil fun t ht => ht.mono (Nat.le_succ 3))
    rw [List.append_nil] at hbind
    exact hbind
  · exact Enters.of_reads hreads
  · exact Enters.of_reads hreads
  · apply unaryLoop_inner hreads
    exact h.before fun u hu => hu.not_mem (by decide)

theorem ReadsAt.down (h : ReadsAt py select k' w e) (hk : k ≤ k') (hk' : k' ≤ 7) :
    ReadsAt py select k w e := by
  induction k', hk using Nat.le_induction with
  | base => exact h
  | succ k' hk ih => exact ih (h.up hk') (Nat.le_of_succ_le hk')

end Levels

end PySQL.Parse
