/-
Registries of leaders in runs without failures.

* `InStep` — the registry is what the log says, and the applier changes nothing in
  it (`InStep.apply_eq`);
* `Blank` — nothing has been proposed in the shard, because it has had no leader;
* `Synced` — every leader's registry is in step with its log, and every shard of the
  grid without a leader is blank; `Synced.change` — failure-free changes keep it.
-/
import Dssd.RegionRegistry
import Dssd.RegionSteady

open Function (update)

namespace Region

open Raft (Cluster LogEntry Membership Node Ghost Sim)

variable {S : Setup} {g g' : String → Ghost Snapshot} {v v' : Shards} {e : Event} {s n : String}

/-! ### Registries in step with the log -/

/-- The registry is what the log says, and only the last entry may be a snapshot that is still
to be applied. -/
structure InStep (r : Node Snapshot) (agents : Registry) : Prop where
  agents : agents = .decode (lastSnapshot r.log)
  last : ∀ k f, r.log[k]? = some f → f.command ≠ none → r.lastApplied < k → k + 1 = r.log.length

theorem InStep.of_eq {r r' : Node Snapshot} {agents : Registry} (h : InStep r agents)
    (hl : r'.log = r.log) (ha : r'.lastApplied = r.lastApplied) : InStep r' agents := by
  refine ⟨hl ▸ h.agents, ?_⟩
  rw [hl, ha]
  exact h.last

/-- A log without snapshots, and a registry without agents. -/
theorem inStep_of_blank {r : Node Snapshot} (h : ∀ f ∈ r.log, f.command = none) :
    InStep r .empty := by
  refine ⟨?_, fun k f hf hc => absurd (h f (List.mem_of_getElem? hf)) hc⟩
  rw [lastSnapshot_eq_none.mpr h]
  rfl

/-- The applier changes nothing. -/
theorem InStep.apply_eq {r : Node Snapshot} {agents : Registry} (h : InStep r agents) (c : ℕ) :
    ((r.log.take (c + 1)).drop (r.lastApplied + 1)).foldl Registry.apply agents = agents := by
  rw [foldl_apply]
  cases hx : lastSnapshot ((r.log.take (c + 1)).drop (r.lastApplied + 1)) with
  | none => rfl
  | some x =>
    obtain ⟨k, f, hk, hf⟩ := exists_of_lastSnapshot hx
    rw [List.getElem?_drop] at hk
    have hlog := Ledger.getElem?_of_isPrefix (List.take_prefix _ _) hk
    have hlen := h.last _ f hlog (by simp [hf]) (by omega)
    -- the snapshot that is applied is the last entry of the log
    have hlast : lastSnapshot r.log = some x := by
      have hsplit : r.log.take (r.lastApplied + 1 + k) ++ [f] = r.log := by
        obtain ⟨hlt, rfl⟩ := List.getElem?_eq_some_iff.mp hlog
        rw [List.take_append_getElem, hlen, List.take_length]
      rw [← hsplit, lastSnapshot_append, lastSnapshot_singleton, hf]
      rfl
    rw [h.agents, hlast]
    rfl

theorem InStep.apply {r : Node Snapshot} {agents : Registry} (h : InStep r agents) {c : ℕ}
    (hle : r.lastApplied ≤ c) : InStep { r with lastApplied := c }
      (((r.log.take (c + 1)).drop (r.lastApplied + 1)).foldl Registry.apply agents) := by
  rw [h.apply_eq]
  exact ⟨h.agents, fun k f hk hf hlt => h.last k f hk hf (hle.trans_lt hlt)⟩

/-- A leader that has applied its whole log proposes its registry. -/
theorem inStep_propose {r : Node Snapshot} (agents : Registry) (hr : r.role = .leader)
    (hup : caughtUp r) : InStep (r.propose agents.snapshot).1 agents := by
  rw [Node.propose, if_neg (by simp [hr])]
  constructor
  · show agents = .decode (lastSnapshot (r.log ++ [_]))
    rw [lastSnapshot_append, lastSnapshot_singleton]
    exact (Registry.ofList_agents agents).symm
  · intro k f hk hf hlt
    change (r.log ++ [_])[k]? = some f at hk
    change r.lastApplied < k at hlt
    have hklt := Ledger.lt_length_of_getElem? hk
    show k + 1 = (r.log ++ [_]).length
    rw [List.length_append, List.length_singleton] at hklt ⊢
    unfold caughtUp Node.lastIndex at hup
    omega

/-- Nothing has been proposed in the shard. -/
structure Blank (g : String → Ghost Snapshot) (v : Shards) (s : String) : Prop where
  ledger : ∀ t, ∀ f ∈ (g s).ledger t, f.command = none
  agents : ∀ n, v.agents s n = .empty

/-- **Leaders' registries are in step with their logs**, and a shard that has no leader has
never had one. -/
structure Synced (S : Setup) (g : String → Ghost Snapshot) (v : Shards) : Prop where
  blank : ∀ s ∈ allShardIds S.grid, (∀ n, (v.node s n).role ≠ .leader) → Blank g v s
  leader : ∀ s n, v.Leads S s n → InStep (v.node s n) (v.agents s n)

theorem synced_init (S : Setup) : Synced S (fun _ => Ghost.init) (World.init S).toShards where
  blank _ _ _ := by
    refine ⟨fun t f hf => ?_, fun _ => rfl⟩
    change f ∈ (if t = 0 then [Raft.sentinel] else []) at hf
    split at hf
    · rw [List.mem_singleton.mp hf]
      rfl
    · exact absurd hf (by simp)
  leader _ _ h := absurd h.2 (by simp [World.init, Shards.node, Cluster.init, Node.init])

/-- The logs of a blank shard. -/
theorem Blank.log (h : Blank g v s) (hb : Base S g v) (n : String) :
    ∀ f ∈ (v.node s n).log, f.command = none := by
  intro f hf
  obtain ⟨k, hk⟩ := List.getElem?_of_mem hf
  have hpre := (hb.sim s).wellFormed n k f hk
  exact h.ledger f.term f
    (List.mem_of_getElem? (Ledger.getElem?_of_take_isPrefix hpre (Nat.lt_succ_self k) hk))

/-- Entries of a blank shard that are applied change nothing. -/
theorem Blank.apply_eq (h : Blank g v s) (hb : Base S g v) (c k : ℕ) :
    (((v.node s n).log.take c).drop k).foldl Registry.apply (v.agents s n) = .empty := by
  rw [foldl_apply, lastSnapshot_eq_none.mpr, h.agents]
  · rfl
  · exact fun f hf => h.log hb n f (List.mem_of_mem_take (List.mem_of_mem_drop hf))

/-- A shard without a leader stays blank. -/
theorem Blank.change (h : Blank g v s) (hp : Past S g v) (hgrow : Grown v v' g g')
    (hc : Shards.Change S v e v') (hno : ∀ n, (v.node s n).role ≠ .leader)
    (hlock : ∀ s n ho, v.lock s n = some ho → (v.node s n).role = .leader) : Blank g' v' s := by
  constructor
  · rcases hgrow s with hsame | ⟨n, f, -, hled, hcmd⟩
    · rw [hsame]
      exact h.ledger
    · have hnone := hcmd.resolve_right fun hsnap => hno n hsnap.2.2
      intro t f' hf'
      rw [hled] at hf'
      by_cases ht : t = f.term
      · subst ht
        rw [Function.update_self] at hf'
        rcases List.mem_append.mp hf' with hf' | hf'
        · exact h.log hp.toBase n f' hf'
        · rw [List.mem_singleton.mp hf']
          exact hnone
      · rw [Function.update_of_ne ht] at hf'
        exact h.ledger t f' hf'
  · intro n
    have hset : ∀ {u : Shards} {s₁ n₁ : String} {x : Replica}, u.agents = v.agents →
        (s₁ = s → x.agents = .empty) → (u.setReplica s₁ n₁ x).agents s n = .empty := by
      intro u s₁ n₁ x hu hx
      rw [Shards.agents_setReplica, hu]
      split
      · rename_i heq
        exact hx heq.1.symm
      · exact h.agents n
    cases hc with
    | idle | raft => exact h.agents n
    | @applier s₁ n₁ c he hc =>
      refine hset (u := { v with raft := update v.raft s₁ c }) rfl fun hs => ?_
      subst hs
      rw [hp.applier_eq]
      exact h.apply_eq hp.toBase _ _
    | take | drop =>
      refine hset rfl fun hs => ?_
      subst hs
      exact h.agents _
    | restore hl hwhy => exact hset rfl fun hs => absurd (hlock _ _ _ hl) (hs ▸ hno _)
    | @move s₁ n₁ hfree hup =>
      rw [Shards.agents_proposeTick]
      refine hset rfl fun hs => ?_
      subst hs
      rw [h.agents]
      rfl
    | place hl hstate hi =>
      rw [Shards.agents_place]
      split
      · rename_i heq
        exact absurd (hlock _ _ _ hl) (heq.1 ▸ hno _)
      · exact h.agents n
    | pop he hl hstate hi =>
      rw [Shards.agents_proposeTick]
      exact hset rfl fun hs => absurd (hlock _ _ _ hl) (hs ▸ hno _)

/-- A leader that stays leader stays in step, one case for each change. -/
theorem InStep.change (h : InStep (v.node s n) (v.agents s n)) (hp : Past S g v)
    (hc : Shards.Change S v e v') (hsmooth : e.Smooth)
    (hlock : ∀ s n ho, v.lock s n = some ho → (v.node s n).state = (ho.term, true))
    (hr : (v.node s n).role = .leader) (hr' : (v'.node s n).role = .leader) :
    InStep (v'.node s n) (v'.agents s n) := by
  -- what a leader proposes in one replica does not touch the others
  have hpropose : ∀ {s₁ n₁ : String} {r : Replica}, caughtUp (v.node s₁ n₁) →
      InStep (((v.setReplica s₁ n₁ r).proposeTick s₁ n₁).node s n)
        (((v.setReplica s₁ n₁ r).proposeTick s₁ n₁).agents s n) := by
    intro s₁ n₁ r hup
    rw [Shards.node_proposeTick, Shards.agents_proposeTick, Shards.agents_setReplica,
      Shards.agents_setReplica, if_pos (⟨rfl, rfl⟩ : s₁ = s₁ ∧ n₁ = n₁), Shards.node_setReplica]
    split
    · rename_i heq
      obtain ⟨rfl, rfl⟩ := heq
      exact inStep_propose r.agents hr hup
    · exact h
  have hset : ∀ {s₁ n₁ : String} {r : Replica}, r.agents = v.agents s₁ n₁ →
      InStep ((v.setReplica s₁ n₁ r).node s n) ((v.setReplica s₁ n₁ r).agents s n) := by
    intro s₁ n₁ r hagents
    rw [Shards.agents_setReplica, hagents]
    split
    · rename_i heq
      obtain ⟨rfl, rfl⟩ := heq
      exact h
    · exact h
  cases hc with
  | idle => exact h
  | @raft s₁ ev c he hc hpr ha =>
    rw [Shards.node_raft] at hr' ⊢
    split
    · rename_i hs
      subst hs
      rw [if_pos rfl] at hr'
      obtain ⟨hlast, hprom⟩ := (Raft.step_internal hc hpr ha n).1
      obtain ⟨-, ⟨-, hlog⟩ | ⟨hcand, -⟩⟩ := hprom hr'
      · exact h.of_eq hlog hlast
      · change (v.node s n).role = _ at hcand
        rw [hr] at hcand
        cases hcand
    · exact h
  | @applier s₁ n₁ c he hc =>
    obtain ⟨-, ⟨⟩⟩ := Option.ite_none_right_eq_some.mp hc
    rw [Shards.node_setReplica, Shards.node_deliver, Shards.agents_setReplica]
    split
    · rename_i heq
      obtain ⟨rfl, rfl⟩ := heq
      rw [hp.applier_eq]
      exact h.apply (hp.node_ok s n).lastApplied
    · exact h
  | take | drop => exact hset rfl
  | restore hl hwhy =>
    rcases hwhy with ⟨hstate, -⟩ | ⟨-, -, rfl⟩
    · exact absurd (hlock _ _ _ hl) hstate
    · exact hsmooth.elim
  | move hfree hup => exact hpropose hup
  | place hl hstate hi => exact hpropose (hp.caughtUp_of_lock hl hstate hi)
  | pop he hl hstate hi => exact hpropose (hp.caughtUp_of_lock hl hstate hi)

/-- A shard that gets a leader has not had one. -/
theorem Synced.blank_of_elected (h : Synced S g v) (hp : Past S g v) (hp' : Past S g' v')
    (hgrow : Grown v v' g g') (hc : Shards.Change S v e v')
    (hlock : ∀ s n ho, v.lock s n = some ho → (v.node s n).role = .leader)
    (hsteady : Steady S v v') (hl : v'.Leads S s n) (hr : (v.node s n).role ≠ .leader) :
    Blank g' v' s := by
  have hno : ∀ m, (v.node s m).role ≠ .leader := by
    intro m hm
    have heq := hsteady.one hp'.toBase hl (hsteady.leads hp.toBase ⟨hl.1, hm⟩)
    exact hr (heq ▸ hm)
  exact (h.blank s hl.1 hno).change hp hgrow hc hno hlock

/-- Failure-free changes keep leaders in step. -/
theorem Synced.change (h : Synced S g v) (hp : Past S g v) (hp' : Past S g' v')
    (hgrow : Grown v v' g g') (hc : Shards.Change S v e v') (hsmooth : e.Smooth)
    (hlock : ∀ s n ho, v.lock s n = some ho → (v.node s n).state = (ho.term, true))
    (hsteady : Steady S v v') : Synced S g' v' := by
  have hleader : ∀ s n ho, v.lock s n = some ho → (v.node s n).role = .leader := fun s n ho hl =>
    (World.state_leader.mp (hlock s n ho hl)).2
  constructor
  · intro s hs hno
    have hno₀ : ∀ n, (v.node s n).role ≠ .leader := fun n hr =>
      hno n (hsteady.leads hp.toBase ⟨hs, hr⟩).2
    exact (h.blank s hs hno₀).change hp hgrow hc hno₀ hleader
  · intro s n hl
    by_cases hr : (v.node s n).role = .leader
    · exact (h.leader s n ⟨hl.1, hr⟩).change hp hc hsmooth hlock hr hl.2
    · have hblank := h.blank_of_elected hp hp' hgrow hc hleader hsteady hl hr
      rw [hblank.agents]
      exact inStep_of_blank (hblank.log hp'.toBase n)

/-- Steps of a Raft group leave the registries of leaders alone. -/
theorem Synced.agents_raftStep (h : Synced S g v) (hp : Past S g v) {s₁ : String}
    {ev : Raft.Event Snapshot} (hv : v.raftStep S s₁ ev = some v') (hl : v.Leads S s n) :
    v'.agents s n = v.agents s n := by
  unfold Shards.raftStep at hv
  split at hv
  · cases hv
  obtain ⟨c, -, rfl⟩ := Option.map_eq_some_iff.mp hv
  dsimp only
  split
  · rw [Shards.agents_setReplica]
    split
    · rename_i heq
      obtain ⟨rfl, rfl⟩ := heq
      rw [hp.applier_eq]
      exact (h.leader s n hl).apply_eq _
    · rfl
  · rfl

end Region
