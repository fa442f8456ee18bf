/-
A failed `add_agent`, and the registry it leaves behind.

* `replay` — what a replica's log says, up to `_last_applied`;
* `Adding` — an `add_agent` that has taken the lock and is still at it; `FailedAdd` —
  it returns `False`;
* `Undoes` — the copy that it puts back is what the log said when it proposed
  (`Undoes.of_adding`), with all other events of the world in between;
* `failed_add_is_consistent` — the registry is what the log says just when no other
  snapshot has been applied since; `failed_add_undoes` — a run in which the entry of
  the call itself has been.
-/
import Dssd.RegionRegistry

open Function (update)

namespace Region

open Raft (Cluster LogEntry Membership Node Ghost Sim)

variable {S : Setup} {g : String → Ghost Snapshot} {v v' : Shards} {w₀ w w' : World} {e : Event}
  {s n : String}

/-- Equal as dicts, in whatever order. -/
def Registry.Same (r r' : Registry) : Prop := ∀ a, a ∈ r.agents ↔ a ∈ r'.agents

theorem Registry.Same.refl (r : Registry) : r.Same r := fun _ => Iff.rfl

/-- The entries up to `_last_applied`, applied to the registry of a new replica. -/
def replay (r : Node Snapshot) : Registry :=
  ((r.log.take (r.lastApplied + 1)).drop 1).foldl Registry.apply .empty

/-- The registry of the replica is the replay of its log. -/
def Consistent (v : Shards) (s n : String) : Prop := (v.agents s n).Same (replay (v.node s n))

/-! ### Calls that fail -/

/-- The `add_agent` that takes the lock of the replica in `w₀` still has it in `w`. -/
inductive Adding (S : Setup) (s n : String) (w₀ : World) : World → Prop
  | acquire {k : ℕ} {t : AddCall} {w : World} (hk : w₀.waiting[k]? = some t) (hs : t.shard = s)
      (hn : t.node = n) (h : World.step S w₀ (.acquire k) = some w) (hheld : w.lock s n ≠ none) :
      Adding S s n w₀ w
  | step {e : Event} {w w' : World} (hw : Adding S s n w₀ w) (h : World.step S w e = some w')
      (hheld : w'.lock s n ≠ none) : Adding S s n w₀ w'

/-- The `add_agent` that is called, or takes the lock, in `w₀` returns `False` in the step from
`w` to `w'`: the replica is not the leader, no longer leads the term, or time is up. -/
inductive FailedAdd (S : Setup) (s n : String) (w₀ : World) : World → World → Prop
  | acquire {k : ℕ} {t : AddCall} {w' : World} (hk : w₀.waiting[k]? = some t) (hs : t.shard = s)
      (hn : t.node = n) (hr : (w₀.node s n).state.2 = false)
      (h : World.step S w₀ (.acquire k) = some w') : FailedAdd S s n w₀ w₀ w'
  | poll {w w' : World} {ho : Holder} (hw : Adding S s n w₀ w) (hlock : w.lock s n = some ho)
      (hstate : (w.node s n).state ≠ (ho.term, true))
      (h : World.step S w (.poll s n) = some w') : FailedAdd S s n w₀ w w'
  | expire {w w' : World} (hw : Adding S s n w₀ w)
      (h : World.step S w (.expire s n) = some w') : FailedAdd S s n w₀ w w'

/-- No snapshot has been applied since the `add_agent` that holds the lock proposed, unless the
last one is the registry from before its proposal. -/
def Quiet (v : Shards) (s n : String) : Prop :=
  ∀ a caller t i before, v.lock s n = some (.place a caller t i before) →
    ∀ l, lastSnapshot (((v.node s n).log.take ((v.node s n).lastApplied + 1)).drop i) = some l →
      before.Same (.ofList l)

/-! ### What the lock protects -/

/-- What has been applied at the replica, in order. -/
def replayed (v : Shards) (s n : String) : Registry :=
  ((v.raft s).applied n).foldl Registry.apply .empty

theorem Base.replay_eq (h : Base S g v) : replay (v.node s n) = replayed v s n := by
  rw [replayed, (h.node_ok s n).applied]
  rfl

/-- Applied entries keep equal registries equal. -/
theorem Registry.Same.foldl_apply {r r' : Registry} (h : r.Same r')
    (es : List (LogEntry Snapshot)) :
    (es.foldl Registry.apply r).Same (es.foldl Registry.apply r') := by
  rw [Region.foldl_apply, Region.foldl_apply]
  cases lastSnapshot es with
  | none => exact h
  | some l => exact .refl _

/-- What the `add_agent` that holds the lock can rely on: before it proposes the registry is what
has been applied, and then its copy is what had been applied before its entry. -/
def Undoes (v : Shards) (s n : String) : Prop :=
  match v.lock s n with
  | some (.catchUp _ _ _ _) => (v.agents s n).Same (replayed v s n)
  | some (.place _ _ _ i before) => 0 < i ∧ i ≤ ((v.raft s).applied n).length + 1 ∧
      before.Same ((((v.raft s).applied n).take (i - 1)).foldl Registry.apply .empty)
  | _ => False

/-- More entries are applied. -/
theorem Undoes.apply (h : Undoes v s n) {es : List (LogEntry Snapshot)}
    (hlock : v'.lock s n = v.lock s n)
    (hagents : v'.agents s n = es.foldl Registry.apply (v.agents s n))
    (happ : (v'.raft s).applied n = (v.raft s).applied n ++ es) : Undoes v' s n := by
  unfold Undoes replayed at h ⊢
  rw [hlock, hagents, happ]
  split at h
  · -- not yet proposed: the registry is all that has been applied
    rw [List.foldl_append]
    exact h.foldl_apply es
  · obtain ⟨hpos, hle, hsame⟩ := h
    refine ⟨hpos, by rw [List.length_append]; omega, ?_⟩
    rw [List.take_append_of_le_length (by omega)]
    exact hsame
  · exact h

/-- An `add_agent` that has applied its whole log proposes, and keeps a copy. -/
theorem Undoes.place (h : Undoes v s n) (hp : Base S g v) {a : AgentState} {caller : Option Call}
    {t i : ℕ} (hlock : v.lock s n = some (.catchUp a caller t i))
    (hstate : (v.node s n).state = (t, true)) (hi : i ≤ (v.node s n).lastApplied) :
    Undoes (v.place s n a caller) s n := by
  have hup := hp.caughtUp_of_lock hlock hstate hi
  have hlt := hp.commit_lt s n
  have hle := (hp.node_ok s n).lastApplied
  -- all entries but the sentinel have been applied
  have hlen : ((v.raft s).applied n).length = (v.node s n).log.length - 1 := by
    rw [(hp.node_ok s n).applied]
    show (((v.node s n).log.take ((v.node s n).lastApplied + 1)).drop 1).length = _
    rw [List.length_drop, List.length_take]
    unfold caughtUp Node.lastIndex at hup
    omega
  have happ : ((v.place s n a caller).raft s).applied n = (v.raft s).applied n := by
    show (((v.setReplica s n _).proposeTick s n).raft s).applied n = _
    rw [Shards.applied_proposeTick]
    rfl
  rw [Undoes, hlock] at h
  unfold Undoes
  rw [Shards.lock_place, if_pos ⟨rfl, rfl⟩]
  refine ⟨by omega, by rw [happ]; omega, ?_⟩
  rw [happ, ← hlen, List.take_length]
  exact h

/-- Under a lock that stays held only applied entries change the registry, until an `add_agent`
proposes. -/
theorem Shards.Change.held (hc : Shards.Change S v e v') {ho : Holder}
    (hlock : v.lock s n = some ho) (hheld : v'.lock s n ≠ none) :
    (v'.lock s n = some ho ∧ ∃ es, v'.agents s n = es.foldl Registry.apply (v.agents s n) ∧
      (v'.raft s).applied n = (v.raft s).applied n ++ es) ∨
    ∃ a caller t i, ho = .catchUp a caller t i ∧ (v.node s n).state = (t, true) ∧
      i ≤ (v.node s n).lastApplied ∧ v' = v.place s n a caller := by
  have hfree : ∀ {s' n' : String}, v.lock s' n' = none → ¬ (s = s' ∧ n = n') := by
    rintro s' n' hl ⟨rfl, rfl⟩
    rw [hlock] at hl
    cases hl
  have hself : ∀ {r : Registry} {s' n' : String}, (v.setReplica s' n' ⟨r, none⟩).lock s n ≠ none →
      ¬ (s = s' ∧ n = n') := fun hl heq => by
    rw [lock_setReplica, if_pos heq] at hl
    exact hl rfl
  -- a change at another replica
  have hother : ∀ {s' n' : String} {r : Replica}, ¬ (s = s' ∧ n = n') →
      (v.setReplica s' n' r).lock s n = some ho ∧
        ∃ es, (v.setReplica s' n' r).agents s n = es.foldl Registry.apply (v.agents s n) ∧
          (v.raft s).applied n = (v.raft s).applied n ++ es := fun hne => by
    rw [lock_setReplica, if_neg hne, agents_setReplica, if_neg hne]
    exact ⟨hlock, [], rfl, (List.append_nil _).symm⟩
  -- the lock is held, so nobody but its holder acts here
  cases hc with
  | idle => exact .inl ⟨hlock, [], rfl, (List.append_nil _).symm⟩
  | @raft s' ev c he hc hpr ha =>
    refine .inl ⟨hlock, [], rfl, ?_⟩
    show (update v.raft s' c s).applied n = _
    by_cases hs : s = s'
    · subst hs
      rw [Function.update_self, (Raft.step_internal hc hpr ha n).2, List.append_nil]
    · rw [Function.update_of_ne hs, List.append_nil]
  | @applier s' n' c he hc =>
    obtain ⟨-, ⟨⟩⟩ := Option.ite_none_right_eq_some.mp hc
    by_cases heq : s = s' ∧ n = n'
    · obtain ⟨rfl, rfl⟩ := heq
      refine .inl ⟨?_, (v.node s n).applier.2.1, ?_, ?_⟩
      · rw [lock_setReplica_self, hlock]
      · rw [agents_setReplica, if_pos ⟨rfl, rfl⟩]
      · show (update v.raft s _ s).applied n = _
        rw [Function.update_self]
        exact Function.update_self _ _ _
    · refine .inl ⟨?_, [], ?_, ?_⟩
      · rw [lock_setReplica, if_neg heq]
        exact hlock
      · rw [agents_setReplica, if_neg heq]
        rfl
      · show (update v.raft s' _ s).applied n = _
        rw [List.append_nil]
        by_cases hs : s = s'
        · subst hs
          rw [Function.update_self]
          exact Function.update_of_ne (fun hn => heq ⟨rfl, hn⟩) _ _
        · rw [Function.update_of_ne hs]
  | take hl hr ht hi hpl => exact .inl (hother (hfree hl))
  | drop hl hwhy => exact .inl (hother (hself hheld))
  | restore hl hwhy => exact .inl (hother (hself hheld))
  | move hl hup =>
    rw [lock_proposeTick, agents_proposeTick, applied_proposeTick]
    exact .inl (hother (hfree hl))
  | @place s' n' a caller t i hl hstate hi =>
    by_cases heq : s = s' ∧ n = n'
    · obtain ⟨rfl, rfl⟩ := heq
      rw [hlock] at hl
      exact .inr ⟨a, caller, t, i, Option.some_inj.mp hl, hstate, hi, rfl⟩
    · refine .inl ?_
      show ((v.setReplica s' n' _).proposeTick s' n').lock s n = _ ∧ ∃ es,
        ((v.setReplica s' n' _).proposeTick s' n').agents s n = _ ∧
          (((v.setReplica s' n' _).proposeTick s' n').raft s).applied n = _
      rw [lock_proposeTick, agents_proposeTick, applied_proposeTick]
      exact hother heq
  | pop he hl hstate hi =>
    rw [lock_proposeTick, agents_proposeTick, applied_proposeTick]
    exact .inl (hother (hself hheld))

/-- **While it holds the lock an `add_agent` can undo what it does**, whatever else happens. -/
theorem Undoes.change (h : Undoes v s n) (hp : Base S g v) (hc : Shards.Change S v e v')
    (hheld : v'.lock s n ≠ none) : Undoes v' s n := by
  cases hlock : v.lock s n with
  | none =>
    rw [Undoes, hlock] at h
    exact h.elim
  | some ho =>
    rcases hc.held hlock hheld with
    ⟨hl, es, hagents, happ⟩ | ⟨a, caller, t, i, rfl, hstate, hi, rfl⟩
    · exact h.apply (hl.trans hlock.symm) hagents happ
    · exact h.place hp hlock hstate hi

/-! ### Runs of a call -/

/-- A call that gets the lock waits for the log of its leader to be applied. -/
theorem acquire_held {k : ℕ} {t : AddCall} (hk : w.waiting[k]? = some t)
    (h : World.step S w (.acquire k) = some w') (hheld : w'.lock t.shard t.node ≠ none) :
    w'.toShards = w.toShards.setReplica t.shard t.node ⟨w.agents t.shard t.node,
      some (.catchUp t.agent t.caller (w.node t.shard t.node).currentTerm
        (w.node t.shard t.node).lastIndex)⟩ := by
  rw [World.step, hk] at h
  obtain ⟨hfree, ⟨⟩⟩ := Option.ite_none_right_eq_some.mp h
  unfold World.acquire at hheld ⊢
  dsimp only at hheld ⊢
  split
  · rfl
  · rename_i hr
    -- a replica that does not lead lets the lock go at once
    rw [if_neg hr, World.toShards_finish] at hheld
    exact absurd (Option.isNone_iff_eq_none.mp hfree) hheld

theorem Adding.steps (h : Adding S s n w₀ w) : Steps S w₀ w := by
  induction h with
  | acquire hk hs hn h hheld => exact .single ⟨_, h⟩
  | step hw h hheld ih => exact ih.tail ⟨_, h⟩

/-- Execute events as long as the lock is held, from the moment when call `k` takes it. -/
def call (S : Setup) (s n : String) (w₀ : World) (k : ℕ) (es : List Event) : Option World :=
  (World.step S w₀ (.acquire k)).bind fun w =>
    Run.execWhere (World.step S) (fun w _ => w.lock s n ≠ none) w es

theorem held_of_execWhere {es : List Event}
    (hes : Run.execWhere (World.step S) (fun w _ => w.lock s n ≠ none) w es = some w')
    (hheld : w'.lock s n ≠ none) : w.lock s n ≠ none := by
  cases es with
  | nil =>
    obtain rfl : w = w' := by simpa [Run.execWhere] using hes
    exact hheld
  | cons e es =>
    rw [Run.execWhere] at hes
    exact (Option.ite_none_right_eq_some.mp hes).1

theorem Adding.of_call {k : ℕ} {t : AddCall} {es : List Event} (hk : w₀.waiting[k]? = some t)
    (hs : t.shard = s) (hn : t.node = n) (h : call S s n w₀ k es = some w)
    (hheld : w.lock s n ≠ none) : Adding S s n w₀ w := by
  -- by induction on the events after the lock is taken
  have key : ∀ {es : List Event} {w₁ : World}, Adding S s n w₀ w₁ →
      Run.execWhere (World.step S) (fun w _ => w.lock s n ≠ none) w₁ es = some w →
        Adding S s n w₀ w := by
    intro es
    induction es with
    | nil =>
      intro w₁ hw hes
      obtain rfl : w₁ = w := by simpa [Run.execWhere] using hes
      exact hw
    | cons e es ih =>
      intro w₁ hw hes
      rw [Run.execWhere] at hes
      obtain ⟨-, hes⟩ := Option.ite_none_right_eq_some.mp hes
      obtain ⟨w₂, h₁, h₂⟩ := Option.bind_eq_some_iff.mp hes
      exact ih (hw.step h₁ (held_of_execWhere h₂ hheld)) h₂
  obtain ⟨w₁, h₁, h₂⟩ := Option.bind_eq_some_iff.mp h
  exact key (.acquire hk hs hn h₁ (held_of_execWhere h₂ hheld)) h₂

/-- What a call that has found the registry consistent can undo. -/
theorem Undoes.of_adding (h₀ : Reachable S w₀) (hrep : Consistent w₀.toShards s n)
    (h : Adding S s n w₀ w) : Undoes w.toShards s n := by
  induction h with
  | @acquire k t w hk hs hn h hheld =>
    subst hs hn
    obtain ⟨g, hp⟩ := h₀.exists_past
    rw [Consistent, hp.replay_eq] at hrep
    rw [acquire_held hk h hheld, Undoes, Shards.lock_setReplica_self]
    dsimp only
    rw [Shards.agents_setReplica, if_pos ⟨rfl, rfl⟩]
    exact hrep
  | step hw h hheld ih =>
    obtain ⟨g, hp⟩ := Reachable.exists_past (h₀.trans hw.steps)
    exact ih.change hp.toBase (World.step_change h) hheld

/-! ### What is left -/

theorem consistent_release {r : Registry} :
    Consistent (v.setReplica s n ⟨r, none⟩) s n ↔ r.Same (replay (v.node s n)) := by
  rw [Consistent, Shards.agents_setReplica, if_pos ⟨rfl, rfl⟩, Shards.node_setReplica]

/-- A copy that is put back is what the log says, unless a snapshot has been applied since. -/
theorem Undoes.of_place (h : Undoes v s n) (hp : Base S g v) {a : AgentState}
    {caller : Option Call} {t i : ℕ} {before : Registry}
    (hlock : v.lock s n = some (.place a caller t i before)) :
    before.Same (replay (v.node s n)) ↔ Quiet v s n := by
  rw [Undoes, hlock] at h
  obtain ⟨hpos, hle, hsame⟩ := h
  -- the entries applied since the proposal are those from its own on
  have hsince : ((v.node s n).log.take ((v.node s n).lastApplied + 1)).drop i =
      ((v.raft s).applied n).drop (i - 1) := by
    rw [(hp.node_ok s n).applied, List.drop_drop]
    congr 1
    omega
  have hquiet : Quiet v s n ↔ ∀ l, lastSnapshot (((v.raft s).applied n).drop (i - 1)) = some l →
      before.Same (.ofList l) := by
    rw [← hsince]
    constructor
    · exact fun hq => hq a caller t i before hlock
    · intro hq a' caller' t' i' before' hl
      rw [hlock] at hl
      cases hl
      exact hq
  have hreplay : replay (v.node s n) = (((v.raft s).applied n).drop (i - 1)).foldl Registry.apply
      ((((v.raft s).applied n).take (i - 1)).foldl Registry.apply .empty) := by
    rw [hp.replay_eq, replayed, ← List.foldl_append, List.take_append_drop]
  rw [hreplay, foldl_apply, hquiet]
  cases lastSnapshot (((v.raft s).applied n).drop (i - 1)) with
  | none => exact ⟨fun _ _ hl => (nomatch hl), fun _ => hsame⟩
  | some l =>
    constructor
    · intro h l' hl
      rw [← Option.some_inj.mp hl]
      exact h
    · exact fun h => h l rfl

/-- What an `add_agent` leaves behind when it gives up. -/
theorem Undoes.gives_up (h : Undoes v s n) (hp : Base S g v) {ho : Holder}
    (hlock : v.lock s n = some ho) :
    Consistent (v.setReplica s n ⟨ho.before.getD (v.agents s n), none⟩) s n ↔ Quiet v s n := by
  rw [consistent_release]
  cases ho with
  | catchUp a caller t i =>
    -- it has not proposed, and the registry is as the log has it
    rw [Undoes, hlock] at h
    rw [hp.replay_eq]
    refine ⟨fun _ _ _ _ _ _ hl => ?_, fun _ => h⟩
    rw [hlock] at hl
    cases hl
  | place a caller t i before => exact h.of_place hp hlock
  | remove ids t i =>
    rw [Undoes, hlock] at h
    exact h.elim

/-- A holder that wakes up out of its term puts its copy back, if it has one. -/
theorem toShards_poll {ho : Holder} (hlock : w.lock s n = some ho)
    (hstate : (w.node s n).state ≠ (ho.term, true)) (h : w.poll s n = some w') :
    w'.toShards = w.toShards.setReplica s n ⟨ho.before.getD (w.agents s n), none⟩ := by
  rw [World.poll, hlock] at h
  cases ho with
  | catchUp a caller t i | place a caller t i before =>
    dsimp only at h
    rw [if_pos (show (w.node s n).state ≠ (t, true) from hstate)] at h
    cases h
    exact World.toShards_finish _ _ _ _
  | remove ids t i =>
    dsimp only at h
    rw [if_pos (show (w.node s n).state ≠ (t, true) from hstate)] at h
    cases h
    exact World.toShards_next _ _

/-- So does a holder whose time is up. -/
theorem toShards_expire (h : w.expire s n = some w') : ∃ ho, w.lock s n = some ho ∧
    w'.toShards = w.toShards.setReplica s n ⟨ho.before.getD (w.agents s n), none⟩ := by
  unfold World.expire at h
  dsimp only at h
  split at h
  · cases h
  rename_i ho hlock
  obtain ⟨-, h⟩ := Option.ite_none_left_eq_some.mp h
  refine ⟨ho, hlock, ?_⟩
  cases ho with
  | catchUp a caller t i | place a caller t i before =>
    cases h
    exact World.toShards_finish _ _ _ _
  | remove ids t i =>
    cases h
    exact World.toShards_next _ _

/-- **A failed `add_agent` leaves the registry consistent** just when it has been quiet. -/
theorem failed_add_is_consistent (h₀ : Reachable S w₀) (hrep : Consistent w₀.toShards s n)
    (h : FailedAdd S s n w₀ w w') : Consistent w'.toShards s n ↔ Quiet w.toShards s n := by
  cases h with
  | @acquire k t _ hk hs hn hr h =>
    subst hs hn
    rw [World.step, hk] at h
    obtain ⟨hfree, ⟨⟩⟩ := Option.ite_none_right_eq_some.mp h
    have hsame : (w₀.acquire k t).toShards = w₀.toShards := by
      unfold World.acquire
      rw [if_neg (by rw [hr]; decide), World.toShards_finish]
    rw [hsame]
    refine ⟨fun _ _ _ _ _ _ hl => ?_, fun _ => hrep⟩
    rw [Option.isNone_iff_eq_none.mp hfree] at hl
    cases hl
  | poll hw hlock hstate h =>
    obtain ⟨g, hp⟩ := Reachable.exists_past (h₀.trans hw.steps)
    rw [toShards_poll hlock hstate h]
    exact (Undoes.of_adding h₀ hrep hw).gives_up hp.toBase hlock
  | expire hw h =>
    obtain ⟨g, hp⟩ := Reachable.exists_past (h₀.trans hw.steps)
    obtain ⟨ho, hlock, hshards⟩ := toShards_expire h
    rw [hshards]
    exact (Undoes.of_adding h₀ hrep hw).gives_up hp.toBase hlock

/-! ### Three nodes and one shard -/

/-- `a` leads, and a new agent waits for its lock. -/
def loneWaits : World :=
  loneAfter (raftEvents "0-0" [.start "a", .start "b", .start "c"] ++ loneElect "a" 0 ++
    loneCommit "a" "b" 1 ++ [.spawn "a" walker]) (by decide +kernel)

theorem loneWaits_consistent : Consistent loneWaits.toShards "0-0" "a" := by
  rw [Consistent, show replay (loneWaits.node "0-0" "a") = loneWaits.agents "0-0" "a" by
    decide +kernel]
  exact .refl _

/-- `b` asks `a` for its vote in term 2. -/
def loneDepose : List Event := raftEvents "0-0" [.electionTimeout "b", .handleRequestVote 0]

/-- The call at `a` has taken the lock, and then this has happened. -/
def loneCall (es : List Event) (h : (call lone "0-0" "a" loneWaits 0 es).isSome = true) : World :=
  (call lone "0-0" "a" loneWaits 0 es).get h

/-- A call fails that wakes up when its node no longer leads. -/
theorem lone_failedAdd {es : List Event} {h} {ho : Holder}
    (hlock : (loneCall es h).lock "0-0" "a" = some ho)
    (hstate : ((loneCall es h).node "0-0" "a").state ≠ (ho.term, true))
    (hpoll : ((loneCall es h).poll "0-0" "a").isSome = true) :
    FailedAdd lone "0-0" "a" loneWaits (loneCall es h)
      (((loneCall es h).poll "0-0" "a").get hpoll) :=
  .poll (.of_call (Option.some_get (by decide +kernel)).symm (by decide +kernel) (by decide +kernel)
    (Option.some_get h).symm (by rw [hlock]; exact Option.some_ne_none _)) hlock hstate
    (Option.some_get hpoll).symm

/-- The call has proposed, and `a` is deposed before its entry is anywhere else. -/
theorem failed_add_is_consistent_lone : ∃ w w', FailedAdd lone "0-0" "a" loneWaits w w' ∧
    (w.agents "0-0" "a").Has "x" ∧ Consistent w'.toShards "0-0" "a" := by
  have hlock : (loneCall (.poll "0-0" "a" :: loneDepose) (by decide +kernel)).lock "0-0" "a" =
      some (.place walker none 1 2 .empty) := by decide +kernel
  have hfail := lone_failedAdd hlock (by decide +kernel) (by decide +kernel)
  refine ⟨_, _, hfail, by decide +kernel,
    (failed_add_is_consistent (Run.steps_get _) loneWaits_consistent hfail).mpr ?_⟩
  intro a caller t i before hl l hlast
  rw [hlock] at hl
  cases hl
  rw [show lastSnapshot _ = none by decide +kernel] at hlast
  cases hlast

/-- The entry of the call is committed and applied, and `a` is deposed before the call wakes up:
what it puts back is without the agent. -/
theorem failed_add_undoes : ∃ w w', FailedAdd lone "0-0" "a" loneWaits w w' ∧
    Reachable lone loneWaits ∧ Consistent loneWaits.toShards "0-0" "a" ∧
      ¬ Consistent w'.toShards "0-0" "a" := by
  have hlock : (loneCall (.poll "0-0" "a" :: loneCommit "a" "b" 1 ++ loneDepose)
      (by decide +kernel)).lock "0-0" "a" = some (.place walker none 1 2 .empty) := by
    decide +kernel
  refine ⟨_, _, lone_failedAdd hlock (by decide +kernel) (by decide +kernel), Run.steps_get _,
    loneWaits_consistent, fun h => ?_⟩
  exact absurd ((h walker).mpr (by decide +kernel)) (by decide +kernel)

end Region
