import PySQL.Distributed.Coordinator

/-!
# What a two-phase commit leaves behind

The participants are asked in order, and each that is reached keeps what its command did: an aborted
transaction is undone only if these commands change nothing.
-/

namespace PySQL.Distributed

open Lib Query Dict

variable {δ ε : Type*}

namespace Engine

variable (db : Engine δ ε)

/-- A participant's turn in phase 1. -/
def executeTurn (cmd : String) (node : δ) : δ × Bool :=
  ((db.execute node cmd).1, (db.execute node cmd).2.isOk)

/-- A participant's turn in phase 2. -/
def checkpointTurn (_ : Unit) (node : δ) : δ × Bool :=
  ((db.checkpoint node).1, (db.checkpoint node).2.isOk)

end Engine

namespace DistributedCoordinator

variable (db : Engine δ ε)

theorem prepare_sweep (l : List (String × String)) (nodes : Dict String δ)
    (votes : Dict String Bool) :
    (prepare db l nodes votes).1 = (sweep db.executeTurn l nodes).1 ∧
      (prepare db l nodes votes).2.2 = (sweep db.executeTurn l nodes).2 := by
  induction l generalizing nodes votes with
  | nil => exact ⟨rfl, rfl⟩
  | cons p rest ih =>
    obtain ⟨nodeId, cmd⟩ := p
    rcases hnode : nodes.get? nodeId with _ | node
    · simp [prepare, sweep, hnode]
    · rcases hexec : db.execute node cmd with ⟨node', e | res⟩
      · simp [prepare, sweep, hnode, Engine.executeTurn, hexec, Except.isOk, Except.toBool]
      · simpa [prepare, sweep, hnode, Engine.executeTurn, hexec, Except.isOk, Except.toBool] using
          ih (nodes.set nodeId node') (votes.set nodeId true)

theorem finalize_sweep (keys : List String) (nodes : Dict String δ) :
    (finalize db keys nodes).1 = (sweep db.checkpointTurn (keys.map (·, ())) nodes).1 ∧
      (finalize db keys nodes).2.isOk = (sweep db.checkpointTurn (keys.map (·, ())) nodes).2 := by
  induction keys generalizing nodes with
  | nil => exact ⟨rfl, rfl⟩
  | cons k rest ih =>
    rcases hnode : nodes.get? k with _ | node
    · simp [finalize, sweep, hnode, Except.isOk, Except.toBool]
    · rcases hflush : db.checkpoint node with ⟨node', e | res⟩
      · simp [finalize, sweep, hnode, Engine.checkpointTurn, hflush, Except.isOk, Except.toBool]
      · simpa [finalize, sweep, hnode, Engine.checkpointTurn, hflush, Except.isOk, Except.toBool]
          using ih (nodes.set k node')

/-- The participant is known and its database takes the command. -/
abbrev takes (nodes : Dict String δ) (p : String × String) : Bool :=
  accepts db.executeTurn nodes p

/-- The participants that phase 1 asks. -/
abbrev asked (nodes : Dict String δ) (commands : Dict String String) : List (String × String) :=
  upTo (takes db nodes) commands.items

/-- Each participant that is asked has voted as its database answers. -/
theorem get?_votes {l : List (String × String)} (h : (l.map Prod.fst).Nodup) (nodes : Dict String δ)
    (votes : Dict String Bool) (k : String) :
    (prepare db l nodes votes).2.1.get? k = (lookup k (upTo (takes db nodes) l)).elim
      (votes.get? k) fun cmd => some (takes db nodes (k, cmd)) := by
  induction l generalizing nodes votes with
  | nil => rfl
  | cons p rest ih =>
    rw [List.map_cons, List.nodup_cons] at h
    unfold prepare
    split
    · next hnone =>
      have hp : takes db nodes p = false := by simp [accepts, hnone]
      rw [upTo, if_neg (by simp [hp]), lookup_cons, get?_set]
      by_cases hk : p.1 = k
      · subst hk
        simp [hp]
      · simp [hk, lookup]
    · next node hnode =>
      have hp : takes db nodes p = (db.execute node p.2).2.isOk := by
        simp [accepts, hnode, Engine.executeTurn]
      rcases hexec : db.execute node p.2 with ⟨node', e | res⟩ <;> rw [hexec] at hp
      · replace hp : takes db nodes p = false := hp
        simp only
        rw [upTo, if_neg (by simp [hp]), lookup_cons, get?_set]
        by_cases hk : p.1 = k
        · subst hk
          simp [hp]
        · simp [hk, lookup]
      · replace hp : takes db nodes p = true := hp
        have hcongr : ∀ q ∈ rest, takes db (nodes.set p.1 node') q = takes db nodes q :=
          fun q hq => accepts_set fun hk => h.1 (hk ▸ List.mem_map_of_mem hq)
        simp only
        rw [ih h.2, upTo_congr hcongr, upTo, if_pos hp, lookup_cons]
        by_cases hk : p.1 = k
        · subst hk
          have hout : lookup p.1 (upTo (takes db nodes) rest) = none := by
            apply lookup_eq_none_of_not_mem
            intro hmem
            exact h.1 (List.map_subset _ (upTo_subset _ _) hmem)
          simp [hout, hp]
        · rw [if_neg hk, get?_set_ne _ _ hk]
          rcases hlook : lookup k (upTo (takes db nodes) rest) with _ | cmd
          · rfl
          · have hmem : (k, cmd) ∈ rest := upTo_subset _ _ (mem_of_lookup hlook)
            exact congrArg some (hcongr _ hmem)

/-! ## One call -/

variable {db} {c : DistributedCoordinator δ} {txnId : String} {commands : Dict String String}

/-- The nodes after phase 1. -/
abbrev prepared (db : Engine δ ε) (nodes : Dict String δ) (commands : Dict String String) :
    Dict String δ :=
  (sweep db.executeTurn commands.items nodes).1

/-- The state of a transaction as a call leaves it on record. -/
def recorded (db : Engine δ ε) (nodes : Dict String δ) (txnId : String)
    (commands : Dict String String) (phase : TransactionPhase) : DistributedTxnState where
  txnId := txnId
  phase := phase
  participants := commands.keys
  votes := (prepare db commands.items nodes Dict.empty).2.1

/-- The coordinator with a transaction on record. -/
def record (c : DistributedCoordinator δ) (nodes : Dict String δ) (st : DistributedTxnState) :
    DistributedCoordinator δ :=
  { c with
    nodes
    activeTxns := (c.activeTxns.set st.txnId
      { txnId := st.txnId, participants := st.participants }).set st.txnId st }

variable (db c txnId commands)

inductive Outcome2pc : DistributedCoordinator δ × Except (CoordinatorError ε) Bool → Prop where
  | refused (h : ∃ p ∈ commands.items, takes db c.nodes p = false) :
      Outcome2pc (c.record (prepared db c.nodes commands)
        (recorded db c.nodes txnId commands .aborted), .ok false)
  | committed (h : ∀ p ∈ commands.items, takes db c.nodes p = true) (nodes)
      (hflush : finalize db commands.keys (prepared db c.nodes commands) = (nodes, .ok ())) :
      Outcome2pc (c.record nodes (recorded db c.nodes txnId commands .committed), .ok true)
  | raised (h : ∀ p ∈ commands.items, takes db c.nodes p = true) (nodes) (e)
      (hflush : finalize db commands.keys (prepared db c.nodes commands) = (nodes, .error e)) :
      Outcome2pc (c.record nodes (recorded db c.nodes txnId commands .committing), .error e)

theorem execute2pc_outcome :
    Outcome2pc db c txnId commands (execute2pc db c txnId commands) := by
  obtain ⟨hnodes, hok⟩ := prepare_sweep db commands.items c.nodes Dict.empty
  rw [sweep_snd commands.nodup] at hok
  unfold execute2pc beginDistributedTxn
  simp only [hnodes, hok]
  by_cases hall : commands.items.all (takes db c.nodes) = true
  · rw [if_pos hall]
    rw [List.all_eq_true] at hall
    rcases hflush : finalize db commands.keys (prepared db c.nodes commands) with ⟨nodes, e | _⟩
    · exact .raised hall nodes e hflush
    · exact .committed hall nodes hflush
  · rw [if_neg hall]
    rw [Bool.not_eq_true, List.all_eq_false] at hall
    obtain ⟨p, hp, hrefuse⟩ := hall
    exact .refused ⟨p, hp, by simpa using hrefuse⟩

variable {db c txnId commands}

/-- A participant whose command was taken is a node of the cluster. -/
theorem get?_of_takes {p : String × String} (h : takes db c.nodes p = true) :
    ∃ node, c.nodes.get? p.1 = some node := by
  unfold takes accepts at h
  cases hnode : c.nodes.get? p.1 with
  | none => simp [hnode] at h
  | some node => exact ⟨node, rfl⟩

/-- The commit loop finds every participant. -/
theorem finalize_raised {keys : List String} {nodes : Dict String δ}
    (h : ∀ k ∈ keys, k ∈ nodes.keys) {e : CoordinatorError ε}
    (he : (finalize db keys nodes).2 = .error e) : ∃ err, e = .raised err := by
  induction keys generalizing nodes with
  | nil => cases he
  | cons k rest ih =>
    rcases hnode : nodes.get? k with _ | node
    · have hmem := get?_isSome.mpr (h k (by simp))
      rw [hnode] at hmem
      cases hmem
    · rcases hflush : db.checkpoint node with ⟨node', err | res⟩
      · simp only [finalize, hnode, hflush, Except.error.injEq] at he
        exact ⟨err, he.symm⟩
      · simp only [finalize, hnode, hflush] at he
        apply ih _ he
        rw [keys_set hnode]
        exact fun k' hk' => h k' (by simp [hk'])

theorem lookup_map_unit {k : String} {keys : List String} :
    lookup k (keys.map (·, ())) = if k ∈ keys then some () else none := by
  induction keys with
  | nil => rfl
  | cons k' rest ih =>
    rw [List.map_cons, lookup_cons, ih]
    by_cases hk : k' = k
    · simp [hk]
    · simp [hk, Ne.symm hk]

/-- A commit loop that raises nothing has flushed every participant. -/
theorem get?_finalize {keys : List String} {nodes nodes' : Dict String δ} (hnd : keys.Nodup)
    (h : finalize db keys nodes = (nodes', .ok ())) (k : String) :
    nodes'.get? k = if k ∈ keys then (nodes.get? k).map fun node => (db.checkpoint node).1
      else nodes.get? k := by
  obtain ⟨hnodes, hok⟩ := finalize_sweep db keys nodes
  have hnd' : ((keys.map (·, ())).map Prod.fst).Nodup := by simpa [Function.comp_def] using hnd
  rw [sweep_snd hnd', h] at hok
  have hall : ∀ p ∈ keys.map (·, ()), accepts db.checkpointTurn nodes p = true :=
    List.all_eq_true.mp hok.symm
  rw [h] at hnodes
  rw [show nodes' = _ from hnodes, get?_sweep hnd', upTo_eq_self hall, turn, lookup_map_unit]
  split <;> rfl

/-- What a call returns, and what it leaves of every node: the ones before the first that refuses,
and that one itself, keep what their commands did; when nobody refuses and no checkpoint raises, all
commands have run and their databases are flushed. -/
theorem execute2pc_effect (db : Engine δ ε) (c : DistributedCoordinator δ) (txnId : String)
    (commands : Dict String String) :
    ((execute2pc db c txnId commands).2 = .ok false ↔
        ∃ p ∈ commands.items, takes db c.nodes p = false) ∧
      ((execute2pc db c txnId commands).2 = .ok false → ∀ k,
        (execute2pc db c txnId commands).1.nodes.get? k =
          turn db.executeTurn c.nodes (asked db c.nodes commands) k) ∧
      ((execute2pc db c txnId commands).2 = .ok true → ∀ k,
        (execute2pc db c txnId commands).1.nodes.get? k = (commands.get? k).elim (c.nodes.get? k)
          fun cmd => (c.nodes.get? k).map fun node =>
            (db.checkpoint (db.execute node cmd).1).1) ∧
      ∀ e, (execute2pc db c txnId commands).2 = .error e → ∃ err, e = .raised err := by
  have hout := execute2pc_outcome db c txnId commands
  generalize execute2pc db c txnId commands = r at hout
  cases hout with
  | refused h =>
    refine ⟨⟨fun _ => h, fun _ => rfl⟩, fun _ k => get?_sweep commands.nodup k, ?_, ?_⟩
    · intro htrue
      cases htrue
    · intro e he
      cases he
  | committed h nodes hflush =>
    have hnone : ¬ ∃ p ∈ commands.items, takes db c.nodes p = false := by
      intro ⟨p, hp, hrefuse⟩
      rw [h p hp] at hrefuse
      cases hrefuse
    refine ⟨iff_of_false (by simp) hnone, by simp, fun _ k => ?_, by simp⟩
    have hran : (prepared db c.nodes commands).get? k =
        turn db.executeTurn c.nodes commands.items k := by
      rw [prepared, get?_sweep commands.nodup, upTo_eq_self h]
    show nodes.get? k = _
    rw [get?_finalize commands.nodup_keys hflush, hran]
    -- the participants are the keys of the commands
    by_cases hk : k ∈ commands.keys
    · obtain ⟨cmd, hcmd⟩ := Option.isSome_iff_exists.mp (get?_isSome.mpr hk)
      rw [if_pos hk, hcmd, turn, show lookup k commands.items = some cmd from hcmd]
      simp only [Option.elim_some, Option.map_map]
      rfl
    · have hcmd : commands.get? k = none := lookup_eq_none_of_not_mem hk
      rw [if_neg hk, hcmd, turn, show lookup k commands.items = none from hcmd]
      rfl
  | raised h nodes e hflush =>
    have hnone : ¬ ∃ p ∈ commands.items, takes db c.nodes p = false := by
      intro ⟨p, hp, hrefuse⟩
      rw [h p hp] at hrefuse
      cases hrefuse
    refine ⟨iff_of_false (by simp) hnone, by simp, by simp, fun e' he => ?_⟩
    cases he
    refine finalize_raised (fun k hk => ?_) (congrArg Prod.snd hflush)
    obtain ⟨p, hp, rfl⟩ := List.mem_map.mp hk
    rw [prepared, keys_sweep]
    obtain ⟨node, hnode⟩ := get?_of_takes (h p hp)
    exact get?_isSome.mp (by rw [hnode]; rfl)

/-- A node after the query. -/
def afterQuery (db : Engine δ ε) (sql : String) (p : String × δ) : String × δ :=
  (p.1, (db.execute p.2 sql).1)

/-- The columns of a gathered result: those of the first result that has any. -/
def gatheredColumns (schema : List String) : List QueryResult → List String
  | [] => schema
  | res :: rest => gatheredColumns (if schema = [] then res.columns else schema) rest

theorem gather_cases (db : Engine δ ε) (sql : String) (nodes : List (String × δ))
    (schema : List String) (rows : List Row) :
    (∃ results : List QueryResult,
        nodes.map (fun p => (db.execute p.2 sql).2) = results.map .ok ∧
        gather db sql nodes schema rows = (nodes.map (afterQuery db sql),
          .ok (gatheredColumns schema results, rows ++ results.flatMap QueryResult.rows))) ∨
      ∃ before p after e, nodes = before ++ p :: after ∧
        (∀ q ∈ before, (db.execute q.2 sql).2.isOk = true) ∧
        (db.execute p.2 sql).2 = .error e ∧ gather db sql nodes schema rows =
          (before.map (afterQuery db sql) ++ afterQuery db sql p :: after, .error e) := by
  induction nodes generalizing schema rows with
  | nil => exact .inl ⟨[], rfl, by simp [gather, gatheredColumns]⟩
  | cons p rest ih =>
    obtain ⟨k, node⟩ := p
    rcases hexec : db.execute node sql with ⟨node', e | res⟩
    · refine .inr ⟨[], (k, node), rest, e, rfl, by simp, by rw [hexec], ?_⟩
      simp [gather, hexec, afterQuery]
    · have hschema : (if schema.isEmpty && !res.columns.isEmpty then res.columns else schema) =
          if schema = [] then res.columns else schema := by
        rcases schema with _ | ⟨a, l⟩
        · rcases hcols : res.columns with _ | ⟨b, l⟩ <;> simp
        · simp
      have hstep : gather db sql ((k, node) :: rest) schema rows =
          ((k, node') :: (gather db sql rest (if schema = [] then res.columns else schema)
            (rows ++ res.rows)).1, (gather db sql rest (if schema = [] then res.columns else schema)
            (rows ++ res.rows)).2) := by
        simp only [gather, hexec, hschema]
      rw [hstep]
      rcases ih (if schema = [] then res.columns else schema) (rows ++ res.rows) with
        ⟨results, hall, heq⟩ | ⟨before, p, after, e, hsplit, hbefore, he, heq⟩
      · refine .inl ⟨res :: results, by simp [hexec, hall], ?_⟩
        rw [heq]
        simp [gatheredColumns, afterQuery, hexec]
      · refine .inr ⟨(k, node) :: before, p, after, e, by rw [hsplit]; rfl, ?_, he, ?_⟩
        · intro q hq
          rcases List.mem_cons.mp hq with rfl | hq
          · rw [hexec]
            rfl
          · exact hbefore q hq
        · rw [heq]
          simp [afterQuery, hexec]

/-- A query that no node refuses runs once on every node, and its rows are theirs in the order of
the nodes; otherwise the first node that refuses raises, after all before it have run the query. -/
theorem executeScatterGather_effect (db : Engine δ ε) (c : DistributedCoordinator δ)
    (sql : String) :
    (∃ results : List QueryResult,
        c.nodes.items.map (fun p => (db.execute p.2 sql).2) = results.map .ok ∧
        (executeScatterGather db c sql).1.nodes.items = c.nodes.items.map (afterQuery db sql) ∧
        (executeScatterGather db c sql).2 = .ok
          { columns := gatheredColumns [] results, rows := results.flatMap QueryResult.rows,
            affectedRows := (results.flatMap QueryResult.rows).length }) ∨
      ∃ before p after e, c.nodes.items = before ++ p :: after ∧
        (∀ q ∈ before, (db.execute q.2 sql).2.isOk = true) ∧
        (db.execute p.2 sql).2 = .error e ∧ (executeScatterGather db c sql).1.nodes.items =
          before.map (afterQuery db sql) ++ afterQuery db sql p :: after ∧
        (executeScatterGather db c sql).2 = .error e := by
  rcases gather_cases db sql c.nodes.items [] [] with
    ⟨results, hall, heq⟩ | ⟨before, p, after, e, hsplit, hbefore, he, heq⟩
  · refine .inl ⟨results, hall, congrArg Prod.fst heq, ?_⟩
    show Except.map _ (gather db sql c.nodes.items [] []).2 = _
    rw [heq]
    rfl
  · refine .inr ⟨before, p, after, e, hsplit, hbefore, he, congrArg Prod.fst heq, ?_⟩
    show Except.map _ (gather db sql c.nodes.items [] []).2 = _
    rw [heq]
    rfl

/-! ## Runs -/

inductive CoordinatorCall where
  | execute2pc (txnId : String) (commands : Dict String String)
  | executeScatterGather (sql : String)

/-- The coordinator after a call, whatever the call returns or raises. -/
def step (db : Engine δ ε) (c : DistributedCoordinator δ) :
    CoordinatorCall → DistributedCoordinator δ
  | .execute2pc txnId commands => (execute2pc db c txnId commands).1
  | .executeScatterGather sql => (executeScatterGather db c sql).1

/-- The votes on record agree with the phase: all True up to the commit, all True before the one
that aborts, nobody asked after it. -/
def VotesMatch (nodes : List String) (st : DistributedTxnState) : Prop :=
  (st.phase = .committed ∨ st.phase = .committing) ∧
      (∀ k ∈ st.participants, k ∈ nodes ∧ st.votes.get? k = some true) ∨
    st.phase = .aborted ∧ ∃ before k after, st.participants = before ++ k :: after ∧
      (∀ j ∈ before, j ∈ nodes ∧ st.votes.get? j = some true) ∧ st.votes.get? k = some false ∧
      ∀ j ∈ after, st.votes.get? j = none

theorem votesMatch_outcome {r : DistributedCoordinator δ × Except (CoordinatorError ε) Bool}
    (h : Outcome2pc db c txnId commands r) : ∃ nodes st, r.1 = c.record nodes st ∧
      nodes.keys = c.nodes.keys ∧ st.txnId = txnId ∧ VotesMatch c.nodes.keys st := by
  have hkeys : (prepared db c.nodes commands).keys = c.nodes.keys := keys_sweep
  have hfinal : ∀ {nodes result}, finalize db commands.keys (prepared db c.nodes commands) =
      (nodes, result) → nodes.keys = c.nodes.keys := by
    intro nodes result hflush
    have hnodes := (finalize_sweep db commands.keys (prepared db c.nodes commands)).1
    rw [hflush] at hnodes
    rw [show nodes = _ from hnodes, keys_sweep, hkeys]
  have hall : (∀ p ∈ commands.items, takes db c.nodes p = true) → ∀ k ∈ commands.keys,
      k ∈ c.nodes.keys ∧
        (prepare db commands.items c.nodes Dict.empty).2.1.get? k = some true := by
    intro h k hk
    obtain ⟨p, hp, rfl⟩ := List.mem_map.mp hk
    obtain ⟨node, hnode⟩ := get?_of_takes (h p hp)
    refine ⟨get?_isSome.mp (by rw [hnode]; rfl), ?_⟩
    rw [get?_votes db commands.nodup, upTo_eq_self h, lookup_eq_some_of_mem commands.nodup hp]
    exact congrArg some (h p hp)
  cases h with
  | refused h =>
    refine ⟨_, _, rfl, hkeys, rfl, .inr ⟨rfl, ?_⟩⟩
    obtain ⟨l, p, rest, hsplit, hl, hp, hcut⟩ := upTo_split h
    have hnd := commands.nodup
    rw [hsplit] at hnd
    have hnd' : ((l ++ [p]).map Prod.fst).Nodup :=
      hnd.sublist (List.Sublist.map _ (by simp))
    refine ⟨l.map Prod.fst, p.1, rest.map Prod.fst, ?_, ?_, ?_, ?_⟩
    · show commands.items.map Prod.fst = _
      rw [hsplit]
      simp
    · intro j hj
      obtain ⟨q, hq, rfl⟩ := List.mem_map.mp hj
      obtain ⟨node, hnode⟩ := get?_of_takes (hl q hq)
      refine ⟨get?_isSome.mp (by rw [hnode]; rfl), ?_⟩
      show (prepare db commands.items c.nodes Dict.empty).2.1.get? q.1 = _
      rw [get?_votes db commands.nodup, hcut,
        lookup_eq_some_of_mem hnd' (List.mem_append_left _ hq)]
      exact congrArg some (hl q hq)
    · show (prepare db commands.items c.nodes Dict.empty).2.1.get? p.1 = _
      rw [get?_votes db commands.nodup, hcut,
        lookup_eq_some_of_mem hnd' (show (p.1, p.2) ∈ l ++ [p] by simp)]
      exact congrArg some hp
    · intro j hj
      show (prepare db commands.items c.nodes Dict.empty).2.1.get? j = _
      rw [get?_votes db commands.nodup, hcut, lookup_eq_none_of_not_mem]
      · rfl
      · -- the keys before and after the refusal are distinct
        intro hmem
        rw [show l ++ p :: rest = (l ++ [p]) ++ rest by simp, List.map_append] at hnd
        exact (List.nodup_append.mp hnd).2.2 j hmem j hj rfl
  | committed h nodes hflush =>
    exact ⟨_, _, rfl, hfinal hflush, rfl, .inl ⟨.inl rfl, hall h⟩⟩
  | raised h nodes e hflush =>
    exact ⟨_, _, rfl, hfinal hflush, rfl, .inl ⟨.inr rfl, hall h⟩⟩

theorem step_partitioner (db : Engine δ ε) (c : DistributedCoordinator δ)
    (call : CoordinatorCall) : (step db c call).partitioner = c.partitioner := by
  cases call with
  | execute2pc txnId commands =>
    have hout := execute2pc_outcome db c txnId commands
    show (execute2pc db c txnId commands).1.partitioner = _
    generalize execute2pc db c txnId commands = r at hout
    cases hout <;> rfl
  | executeScatterGather sql => rfl

/-- A key is routed to one of the shards. -/
theorem getShard_mem (md5 : String → ℕ) {p : HashPartitioner} (h : p.shards ≠ []) (key : String) :
    ∃ shard ∈ p.shards, p.getShard md5 key = some shard := by
  have hpos := List.length_pos_iff.mpr h
  have hlt : md5 key % p.shards.length < p.shards.length := Nat.mod_lt _ hpos
  refine ⟨p.shards[md5 key % p.shards.length], List.getElem_mem hlt, ?_⟩
  rw [HashPartitioner.getShard, if_neg (by omega), List.getElem?_eq_getElem hlt]

theorem records_of_run (db : Engine δ ε) (calls : List CoordinatorCall) {nodes : List String}
    (c : DistributedCoordinator δ) (hkeys : c.nodes.keys = nodes)
    (htxns : ∀ txnId st, c.activeTxns.get? txnId = some st →
      st.txnId = txnId ∧ VotesMatch nodes st) :
    (calls.foldl (step db) c).nodes.keys = nodes ∧
      (calls.foldl (step db) c).partitioner = c.partitioner ∧
      ∀ txnId st, (calls.foldl (step db) c).activeTxns.get? txnId = some st →
        st.txnId = txnId ∧ VotesMatch nodes st := by
  induction calls generalizing c with
  | nil => exact ⟨hkeys, rfl, htxns⟩
  | cons call rest ih =>
    rw [List.foldl_cons, ← step_partitioner db c call]
    cases call with
    | execute2pc txnId commands =>
      obtain ⟨nodes', st, heq, hkeys', hid, hmatch⟩ :=
        votesMatch_outcome (execute2pc_outcome db c txnId commands)
      rw [hkeys] at hkeys' hmatch
      rw [step, heq]
      apply ih
      · exact hkeys'
      · intro txnId' st' hst'
        rw [record, get?_set, get?_set] at hst'
        split at hst'
        · next hsame =>
          cases hst'
          exact ⟨hsame, hmatch⟩
        · exact htxns txnId' st' hst'
    | executeScatterGather sql =>
      apply ih
      · exact (keys_gather db sql c.nodes.items [] []).trans hkeys
      · exact htxns

end DistributedCoordinator

end PySQL.Distributed
