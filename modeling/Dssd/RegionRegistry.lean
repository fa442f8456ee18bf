/-
The registry of a leader, and its log.

`_apply` only ever sets a registry to what a non-empty entry says, but ticks and
`add_agent` change it before their entry commits.

* `lastSnapshot`, `Registry.decode` — what a log says;
* `Settled` — the registry is what the log says, or a non-empty entry is still to
  be applied and will overwrite it;
* `Keeps` — the steps after which a leader may be unsettled: an election won, or
  an `add_agent` given up, with a change that the log has lost;
* `registry_of_log` — as long as there are no such steps, a caught-up leader's
  registry is what its log says, and the next snapshot is one step on from it;
  `registry_of_log_fails` — a run with one.
-/
import Dssd.RegionDurable

open Function (update)

namespace Region

open Raft (Cluster LogEntry Membership Node Ghost Sim)

variable {S : Setup} {g : String → Ghost Snapshot} {v v' : Shards} {w w' : World} {e : Event}
  {s n : String}

/-! ### What a log says -/

/-- The last non-empty command. -/
def lastSnapshot (l : List (LogEntry Snapshot)) : Snapshot :=
  (l.filterMap LogEntry.command).getLast?

/-- The registry that a snapshot encodes, the empty one if there is none. -/
def Registry.decode : Snapshot → Registry
  | none => .empty
  | some l => .ofList l

theorem lastSnapshot_append (l m : List (LogEntry Snapshot)) :
    lastSnapshot (l ++ m) = (lastSnapshot m).or (lastSnapshot l) := by
  rw [lastSnapshot, List.filterMap_append, List.getLast?_append]
  rfl

theorem lastSnapshot_singleton (f : LogEntry Snapshot) : lastSnapshot [f] = f.command := by
  unfold lastSnapshot
  cases h : f.command <;> simp [h]

theorem lastSnapshot_eq_none {l : List (LogEntry Snapshot)} :
    lastSnapshot l = none ↔ ∀ f ∈ l, f.command = none := by
  rw [lastSnapshot, List.getLast?_eq_none_iff, List.filterMap_eq_nil_iff]

theorem exists_of_lastSnapshot {l : List (LogEntry Snapshot)} {x : List AgentState}
    (h : lastSnapshot l = some x) : ∃ (k : ℕ) (f : LogEntry Snapshot), l[k]? = some f ∧
      f.command = some x := by
  obtain ⟨f, hf, hx⟩ := List.mem_filterMap.mp (List.mem_of_getLast? h)
  obtain ⟨k, hk⟩ := List.getElem?_of_mem hf
  exact ⟨k, f, hk, hx⟩

/-- A log with a snapshot at `j` has its last one at or after `j`. -/
theorem exists_lastSnapshot {l : List (LogEntry Snapshot)} {j : ℕ} {e : LogEntry Snapshot}
    (hj : l[j]? = some e) (he : e.command ≠ none) :
    ∃ k f x, j ≤ k ∧ l[k]? = some f ∧ f.command = some x ∧ lastSnapshot l = some x := by
  induction l using List.reverseRecOn with
  | nil => exact absurd hj (by simp)
  | append_singleton l f ih =>
    rw [lastSnapshot_append, lastSnapshot_singleton]
    have hlt := Ledger.lt_length_of_getElem? hj
    rw [List.length_append, List.length_singleton] at hlt
    cases hf : f.command with
    | some x => exact ⟨l.length, f, x, Nat.le_of_lt_succ hlt, List.getElem?_concat_length, hf, rfl⟩
    | none =>
      have hj' : j < l.length := by
        by_contra hge
        obtain rfl : j = l.length := by omega
        rw [List.getElem?_concat_length] at hj
        cases hj
        exact he hf
      rw [List.getElem?_append_left hj'] at hj
      obtain ⟨k, f', x, hle, hk, hx, hlast⟩ := ih hj
      refine ⟨k, f', x, hle, ?_, hx, by rw [Option.none_or, hlast]⟩
      rw [List.getElem?_append_left (Ledger.lt_length_of_getElem? hk), hk]

/-- Entries applied to a registry leave what the last snapshot among them says. -/
theorem foldl_apply (r : Registry) (es : List (LogEntry Snapshot)) :
    es.foldl Registry.apply r = (lastSnapshot es).elim r Registry.ofList := by
  induction es using List.reverseRecOn with
  | nil => rfl
  | append_singleton es f ih =>
    rw [List.foldl_append, ih, lastSnapshot_append, lastSnapshot_singleton]
    show Registry.apply _ f = _
    unfold Registry.apply
    cases f.command <;> rfl

/-! ### Settled registries -/

/-- The registry is what the log says, or a snapshot is still to be applied. -/
def Settled (r : Node Snapshot) (agents : Registry) : Prop :=
  lastSnapshot (r.log.drop (r.lastApplied + 1)) = none → agents = .decode (lastSnapshot r.log)

instance (r : Node Snapshot) (agents : Registry) : Decidable (Settled r agents) := by
  unfold Settled
  infer_instance

theorem Settled.of_eq {r r' : Node Snapshot} {agents : Registry} (h : Settled r agents)
    (hl : r'.log = r.log) (ha : r'.lastApplied = r.lastApplied) : Settled r' agents := by
  unfold Settled
  rw [hl, ha]
  exact h

/-- A no-op changes nothing. -/
theorem Settled.noop {r r' : Node Snapshot} {agents : Registry} {f : LogEntry Snapshot}
    (h : Settled r agents) (hf : f.command = none) (hl : r'.log = r.log ++ [f])
    (ha : r'.lastApplied = r.lastApplied) (hlt : r.lastApplied < r.log.length) :
    Settled r' agents := by
  intro hnone
  rw [hl, ha, List.drop_append_of_le_length hlt, lastSnapshot_append, lastSnapshot_singleton, hf,
    Option.none_or] at hnone
  rw [hl, lastSnapshot_append, lastSnapshot_singleton, hf, Option.none_or]
  exact h hnone

/-- A snapshot that is still to be applied settles every registry. -/
theorem settled_of_unapplied {r : Node Snapshot} {agents : Registry} {k : ℕ}
    {f : LogEntry Snapshot} (hf : r.log[k]? = some f) (hc : f.command ≠ none)
    (hk : r.lastApplied < k) : Settled r agents := by
  intro hnone
  refine absurd (lastSnapshot_eq_none.mp hnone f ?_) hc
  refine List.mem_of_getElem? (i := k - (r.lastApplied + 1)) ?_
  rw [List.getElem?_drop, Nat.add_sub_cancel' hk, hf]

/-- A replica that has applied its whole log. -/
theorem Settled.eq_of_caughtUp {r : Node Snapshot} {agents : Registry} (h : Settled r agents)
    (hup : caughtUp r) : agents = .decode (lastSnapshot r.log) := by
  refine h ?_
  rw [List.drop_eq_nil_of_le]
  · rfl
  · unfold caughtUp Node.lastIndex at hup
    omega

/-- Applying entries up to index `c` leaves a settled registry settled. -/
theorem Settled.apply {r : Node Snapshot} {agents : Registry} (h : Settled r agents) {c : ℕ}
    (hle : r.lastApplied ≤ c) (hlt : c < r.log.length) :
    Settled { r with lastApplied := c }
      (((r.log.take (c + 1)).drop (r.lastApplied + 1)).foldl Registry.apply agents) := by
  intro hnone
  change lastSnapshot (r.log.drop (c + 1)) = none at hnone
  show _ = Registry.decode (lastSnapshot r.log)
  -- what was to be applied is applied now or comes after
  have hsplit : r.log.drop (r.lastApplied + 1) =
      (r.log.take (c + 1)).drop (r.lastApplied + 1) ++ r.log.drop (c + 1) := by
    rw [← List.drop_append_of_le_length, List.take_append_drop]
    rw [List.length_take]
    omega
  have hnow : lastSnapshot (r.log.drop (r.lastApplied + 1)) =
      lastSnapshot ((r.log.take (c + 1)).drop (r.lastApplied + 1)) := by
    rw [hsplit, lastSnapshot_append, hnone, Option.none_or]
  rw [foldl_apply, ← hnow]
  cases hd : lastSnapshot (r.log.drop (r.lastApplied + 1)) with
  | none => exact h hd
  | some l =>
    rw [← List.take_append_drop (r.lastApplied + 1) r.log, lastSnapshot_append, hd]
    rfl

/-! ### Steps that keep the changes -/

/-- The event makes no leader of a replica, and leaves none, whose registry has a change
that its log has lost. -/
def Keeps (v : Shards) : Event → Prop
  | .raft s (.voteReply k) => ∀ c ∈ (v.raft s).voteReturns[k]?,
      (v.node s c.candidate).Wins c.term c.reply →
        Settled (v.node s c.candidate) (v.agents s c.candidate) ∨
          ∃ h ∈ v.lock s c.candidate, h.before.isSome = true
  | .poll s n => ∀ h ∈ v.lock s n, ∀ r ∈ h.before, (v.node s n).role = .leader →
      (v.node s n).currentTerm ≠ h.term → Settled (v.node s n) r
  | .cancelAdd s n => ∀ h ∈ v.lock s n, h.before.isSome = true → (v.node s n).role = .leader →
      (v.node s n).currentTerm ≠ h.term → Settled (v.node s n) (v.agents s n)
  | _ => True

instance (v : Shards) (e : Event) : Decidable (Keeps v e) := by
  unfold Keeps
  split <;> infer_instance

/-- The registries of leaders are settled, unless an `add_agent` of an earlier term is still
to put its copy back. -/
def Matched (v : Shards) : Prop :=
  ∀ s n, (v.node s n).role = .leader →
    (∀ a caller t i before, v.lock s n = some (.place a caller t i before) →
      (v.node s n).currentTerm = t) → Settled (v.node s n) (v.agents s n)

theorem Matched.of_free (h : Matched v) (hr : (v.node s n).role = .leader)
    (hfree : ∀ ho, v.lock s n = some ho → ho.isPlace = false) :
    Settled (v.node s n) (v.agents s n) :=
  h s n hr fun _ _ _ _ _ hl => absurd (hfree _ hl) (by simp [Holder.isPlace])

theorem Matched.setReplica (h : Matched v) {r : Replica}
    (hnew : (v.node s n).role = .leader → (∀ a caller t i before,
      r.lock = some (.place a caller t i before) → (v.node s n).currentTerm = t) →
        Settled (v.node s n) r.agents) : Matched (v.setReplica s n r) := by
  intro s' n' hr hl
  rw [Shards.node_setReplica] at hr hl ⊢
  rw [Shards.lock_setReplica] at hl
  rw [Shards.agents_setReplica]
  split
  · rename_i heq
    obtain ⟨rfl, rfl⟩ := heq
    rw [if_pos ⟨rfl, rfl⟩] at hl
    exact hnew hr hl
  · rename_i hne
    rw [if_neg hne] at hl
    exact h s' n' hr hl

/-- What a leader proposes is still to be applied. -/
theorem Matched.proposeTick (h : Matched v) (hp : Base S g v) {r : Replica} :
    Matched ((v.setReplica s n r).proposeTick s n) := by
  intro s' n' hr hl
  rw [Shards.node_proposeTick, Shards.node_setReplica] at hr hl ⊢
  rw [Shards.lock_proposeTick, Shards.lock_setReplica] at hl
  rw [Shards.agents_proposeTick]
  split
  · rename_i heq
    obtain ⟨rfl, rfl⟩ := heq
    rw [if_pos ⟨rfl, rfl⟩, Node.propose] at hr
    split at hr
    · contradiction
    rename_i hlead
    rw [Node.propose, if_neg hlead]
    have hlast := (hp.node_ok s' n').lastApplied
    have hlt := hp.commit_lt s' n'
    refine settled_of_unapplied (k := (v.node s' n').log.length) List.getElem?_concat_length
      (by simp [Registry.snapshot]) ?_
    show (v.node s' n').lastApplied < _
    omega
  · rename_i hne
    simp only [if_neg hne] at hr hl
    rw [Shards.agents_setReplica, if_neg hne]
    exact h s' n' hr hl

/-- Steps of a Raft group in which nothing is applied. -/
theorem Matched.raft (h : Matched v) (hp : Base S g v) {ev : Raft.Event Snapshot}
    {c : Cluster Snapshot} (hok : Keeps v (.raft s ev))
    (hc : Cluster.step S.M (v.raft s) ev = some c) (hpr : ev.isPropose = false)
    (ha : ∀ n, ev ≠ .applier n) : Matched { v with raft := update v.raft s c } := by
  intro s' n hr hl
  rw [Shards.node_raft] at hr hl ⊢
  split
  swap
  · rename_i hs
    simp only [if_neg hs] at hr hl
    exact h s' n hr hl
  rename_i hs
  subst hs
  simp only [if_true] at hr hl
  obtain ⟨hlast, hprom⟩ := (Raft.step_internal hc hpr ha n).1
  obtain ⟨hterm, ⟨hlead, hlog⟩ | ⟨hcand, hlog⟩⟩ := hprom hr
  · refine (h s' n hlead fun a caller t i before hlock => ?_).of_eq hlog hlast
    exact hterm.symm.trans (hl a caller t i before hlock)
  · -- the node has just been elected
    obtain ⟨k, c', rfl, hk, rfl, hwin⟩ := Raft.step_elected hc hr (by rw [hcand]; simp)
    have hlt := (hp.node_ok s' c'.candidate).lastApplied.trans_lt (hp.commit_lt s' c'.candidate)
    rcases hok c' hk hwin with hset | ⟨ho, hlock, hplace⟩
    · exact hset.noop rfl hlog hlast hlt
    · cases ho with
      | place a caller t i before =>
        have hown := (hp.watch s' c'.candidate _ hlock).1
        rw [show Holder.term _ = t from rfl, ← hl a caller t i before hlock, hterm] at hown
        exact absurd hown ((hp.node_ok s' c'.candidate).candidate hcand)
      | catchUp | remove => exact absurd hplace (by simp [Holder.before])

theorem Matched.applier (h : Matched v) (hp : Base S g v) {c : Cluster Snapshot}
    (hc : Cluster.step S.M (v.raft s) (.applier n) = some c) :
    Matched (Shards.setReplica { v with raft := update v.raft s c } s n
      ⟨(v.node s n).applier.2.1.foldl Registry.apply (v.agents s n), v.lock s n⟩) := by
  obtain ⟨-, ⟨⟩⟩ := Option.ite_none_right_eq_some.mp hc
  intro s' n' hr hl
  rw [Shards.node_setReplica, Shards.node_deliver] at hr hl ⊢
  rw [Shards.lock_setReplica] at hl
  rw [Shards.agents_setReplica]
  split
  · rename_i heq
    obtain ⟨rfl, rfl⟩ := heq
    simp only [true_and, if_true] at hr hl
    have hlast := (hp.node_ok s' n').lastApplied
    rw [hp.applier_eq] at hr hl ⊢
    exact (h s' n' hr hl).apply hlast (hp.commit_lt s' n')
  · rename_i hne
    simp only [if_neg hne] at hr hl
    exact h s' n' hr hl

/-- **Registries stay settled**, one case for each change. -/
theorem Matched.change (h : Matched v) (hp : Past S g v) (hlocks : ∀ s n, LockOk S v s (v.lock s n))
    (hok : Keeps v e) (hc : Shards.Change S v e v') : Matched v' := by
  have hlast : ∀ s n, (v.node s n).lastApplied < (v.node s n).log.length := fun s n =>
    (hp.node_ok s n).lastApplied.trans_lt (hp.commit_lt s n)
  cases hc with
  | idle => exact h
  | raft he hc hpr ha => exact h.raft hp.toBase (he ▸ hok) hc hpr ha
  | applier he hc => exact h.applier hp.toBase hc
  | take hfree hr ht hi hnot =>
    exact h.setReplica fun hr _ => h.of_free hr fun ho hl => by rw [hfree] at hl; cases hl
  | @drop s n ho hlock hwhy =>
    refine h.setReplica fun hr _ => ?_
    cases ho with
    | catchUp | remove =>
      exact h.of_free hr fun ho hl => by rw [hlock] at hl; cases hl; rfl
    | place a caller t i before =>
      by_cases ht : (v.node s n).currentTerm = t
      · refine h s n hr fun _ _ _ _ _ hl => ?_
        rw [hlock] at hl
        cases hl
        exact ht
      · rcases hwhy with hwhy | rfl | ⟨hstate, -⟩
        · exact absurd hwhy (by simp [Holder.isPlace])
        · exact hok _ hlock rfl hr ht
        · exact absurd (World.state_leader.mp hstate).1 ht
  | @restore s n a caller t i before hlock hwhy =>
    refine h.setReplica fun hr _ => ?_
    rcases hwhy with ⟨hstate, rfl⟩ | ⟨hstate, hlt, -⟩
    · refine hok _ hlock before rfl hr fun ht => ?_
      exact hstate (World.state_leader.mpr ⟨ht, hr⟩)
    · -- its own entry is still to be applied
      obtain ⟨f, l, hf, hcmd, -⟩ := hp.own_entry (hlocks s n) hlock hstate
      exact settled_of_unapplied hf (by simp [hcmd]) hlt
  | move hfree hup => exact h.proposeTick hp.toBase
  | place hlock hstate hi =>
    exact h.proposeTick hp.toBase
  | pop he hlock hstate hi => exact h.proposeTick hp.toBase

/-! ### Runs -/

/-- What a leader may propose next: it moves all agents, adds one or removes some. -/
def OneStep (S : Setup) (r r' : Registry) : Prop :=
  r' = r.step dt S.grid ∨ (∃ a, r' = r.set a) ∨
    ∃ ids : List String, r' = ids.foldl Registry.pop r

/-- What is proposed after the registry has been changed is the changed registry. -/
theorem command_of_proposeTick {r : Replica} {s' n' : String} {f : LogEntry Snapshot}
    {l : List AgentState}
    (hlog : (((v.setReplica s n r).proposeTick s n).node s' n').log = (v.node s' n').log ++ [f])
    (hf : f.command = some l) :
    s' = s ∧ n' = n ∧ (v.node s n).role = .leader ∧ l = r.agents.agents := by
  rw [Shards.node_proposeTick, Shards.node_setReplica, Shards.agents_setReplica,
    if_pos (⟨rfl, rfl⟩ : s = s ∧ n = n)] at hlog
  split at hlog
  · rename_i heq
    obtain ⟨rfl, rfl⟩ := heq
    rw [Node.propose] at hlog
    split at hlog
    · exact absurd hlog (by simp)
    · rename_i hr
      obtain rfl := List.singleton_inj.mp (List.append_cancel_left hlog)
      exact ⟨rfl, rfl, not_not.mp hr, (Option.some_inj.mp hf).symm⟩
  · exact absurd hlog (by simp)

/-- What a leader proposes whose registry is settled as long as no `add_agent` has proposed. -/
theorem Past.oneStep (hp : Past S g v)
    (h : (v.node s n).role = .leader → (∀ ho, v.lock s n = some ho → ho.isPlace = false) →
      Settled (v.node s n) (v.agents s n)) (hc : Shards.Change S v e v')
    {f : LogEntry Snapshot} {l : List AgentState} (hr : (v'.node s n).role = .leader)
    (hlog : (v'.node s n).log = (v.node s n).log ++ [f]) (hf : f.command = some l) :
    ∃ r, OneStep S (.decode (lastSnapshot (v.node s n).log)) r ∧ l = r.agents := by
  have hsame : ∀ {m : List (LogEntry Snapshot)}, m ≠ m ++ [f] := by simp
  cases hc with
  | idle | take | drop | restore => exact absurd hlog hsame
  | raft he hc hpr ha =>
    rw [Shards.node_raft] at hr hlog
    split at hlog
    · rename_i hs
      subst hs
      rw [if_pos rfl] at hr
      obtain ⟨-, ⟨-, hl⟩ | ⟨-, hl⟩⟩ := (Raft.step_internal hc hpr ha n).1.promotes hr
      · exact absurd (hl.symm.trans hlog) hsame
      · obtain rfl := List.singleton_inj.mp (List.append_cancel_left (hl.symm.trans hlog))
        cases hf
    · exact absurd hlog hsame
  | applier he hc =>
    obtain ⟨-, ⟨⟩⟩ := Option.ite_none_right_eq_some.mp hc
    rw [Shards.node_setReplica, Shards.node_deliver] at hlog
    split at hlog
    · rename_i heq
      rw [heq.1, heq.2] at hlog
      exact absurd hlog hsame
    · exact absurd hlog hsame
  | move hfree hup =>
    obtain ⟨rfl, rfl, hlead, rfl⟩ := command_of_proposeTick hlog hf
    have hset := h hlead fun ho hl => by rw [hfree] at hl; cases hl
    exact ⟨_, .inl (by rw [← hset.eq_of_caughtUp hup]), rfl⟩
  | place hlock hstate hi =>
    obtain ⟨rfl, rfl, hlead, rfl⟩ := command_of_proposeTick hlog hf
    have hset := h hlead fun ho hl => by rw [hlock] at hl; cases hl; rfl
    have hup := hp.caughtUp_of_lock hlock hstate hi
    exact ⟨_, .inr (.inl ⟨_, by rw [← hset.eq_of_caughtUp hup]⟩), rfl⟩
  | pop he hlock hstate hi =>
    obtain ⟨rfl, rfl, hlead, rfl⟩ := command_of_proposeTick hlog hf
    have hset := h hlead fun ho hl => by rw [hlock] at hl; cases hl; rfl
    have hup := hp.caughtUp_of_lock hlock hstate hi
    exact ⟨_, .inr (.inr ⟨_, by rw [← hset.eq_of_caughtUp hup]⟩), rfl⟩

def lone : Setup := ⟨Raft.trio, ⟨10, 10, 1, 1⟩⟩
def walker : AgentState := ⟨"x", 5, 5, 1, 0⟩

def loneCommit (l f : String) (t : ℕ) : List Event :=
  raftEvents "0-0" [.replicate l f t, .handleAppendEntries 0, .appendReply 0, .applier l]

/-- Node `l` wins an election with the vote of the peer its request number `k` goes to. -/
def loneElect (l : String) (k : ℕ) : List Event :=
  raftEvents "0-0" [.electionTimeout l, .handleRequestVote k, .voteReply 0, .loseVoteCall 0]

def loneAfter (es : List Event)
    (h : (Run.exec (World.step lone) (World.init lone) es).isSome = true) : World :=
  (Run.exec (World.step lone) (World.init lone) es).get h

end Region
