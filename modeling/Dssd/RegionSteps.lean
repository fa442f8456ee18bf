/-
What one step of the world does to the shards.

* `Change` — the eight things an event may do to clusters, registries and locks,
  each with its guard; `World.step_change` — every step does one of them;
* `Grown` — how the ledgers of the shards grow with a change;
* `Base` — the histories of the clusters, and what a lock holder may rely on: as
  long as its node leads the term it sampled, the log is as long as it was;
  `Base.change` keeps it.
-/
import Dssd.RegionServer
import Dssd.RaftSimulation

open Function (update)
open Ledger.State (Ext)

namespace Region

open Raft (Cluster LogEntry Membership Node Ghost Sim)

variable {S : Setup}

/-- Has this `add_agent` proposed already? -/
def Holder.isPlace : Holder → Bool
  | .place _ _ _ _ _ => true
  | _ => false

namespace Shards

/-! ### Projections -/

section projections

variable {v : Shards} {s n s' n' : String} {r : Replica}

@[simp] theorem node_setReplica : (v.setReplica s n r).node = v.node := rfl

@[simp] theorem agents_proposeTick : (v.proposeTick s n).agents = v.agents := rfl

@[simp] theorem lock_proposeTick : (v.proposeTick s n).lock = v.lock := rfl

theorem replica_setReplica : (v.setReplica s n r).replica s' n' =
    if s' = s ∧ n' = n then r else v.replica s' n' := by
  by_cases h : s' = s ∧ n' = n
  · obtain ⟨rfl, rfl⟩ := h
    simp [setReplica]
  · rw [if_neg h]
    unfold setReplica
    by_cases hs : s' = s
    · subst hs
      simp [show n' ≠ n from fun hn => h ⟨rfl, hn⟩]
    · simp [hs]

theorem agents_setReplica : (v.setReplica s n r).agents s' n' =
    if s' = s ∧ n' = n then r.agents else v.agents s' n' := by
  rw [agents, replica_setReplica]
  split <;> rfl

theorem lock_setReplica : (v.setReplica s n r).lock s' n' =
    if s' = s ∧ n' = n then r.lock else v.lock s' n' := by
  rw [lock, replica_setReplica]
  split <;> rfl

theorem lock_setReplica_self : (v.setReplica s n r).lock s n = r.lock := by
  rw [lock_setReplica, if_pos ⟨rfl, rfl⟩]

theorem node_raft {c : Cluster Snapshot} : ({ v with raft := update v.raft s c } : Shards).node
    s' n' =
    if s' = s then c.node n' else v.node s' n' := by
  show (update v.raft s c s').node n' = _
  split
  · rename_i hs
    rw [hs, Function.update_self]
  · rename_i hs
    rw [Function.update_of_ne hs]
    rfl

/-- The nodes after a wake-up of an applier. -/
theorem node_deliver :
    ({ v with raft := update v.raft s ((v.raft s).deliver n) } : Shards).node s' n' =
      if s' = s ∧ n' = n then (v.node s n).applier.1 else v.node s' n' := by
  rw [node_raft]
  by_cases hs : s' = s
  · subst hs
    by_cases hn : n' = n
    · subst hn
      simp [Cluster.deliver, node]
    · simp [Cluster.deliver, Cluster.set_node_ne, hn, node]
  · simp [hs]

theorem node_proposeTick : (v.proposeTick s n).node s' n' =
    if s' = s ∧ n' = n then ((v.node s n).propose (v.agents s n).snapshot).1 else v.node s' n' := by
  unfold proposeTick node
  by_cases hs : s' = s
  · subst hs
    by_cases hn : n' = n
    · subst hn
      simp
    · simp [hn, Cluster.set_node_ne]
  · simp [hs]

@[simp] theorem applied_proposeTick :
    ((v.proposeTick s n).raft s').applied = (v.raft s').applied := by
  show (update v.raft s _ s').applied = _
  by_cases hs : s' = s
  · subst hs
    rw [Function.update_self]
    rfl
  · rw [Function.update_of_ne hs]

theorem has_setReplica {id : String} (hold : (v.agents s' n').Has id)
    (hnew : s' = s → n' = n → r.agents.Has id) : ((v.setReplica s n r).agents s' n').Has id := by
  rw [agents_setReplica]
  split
  · rename_i heq
    exact hnew heq.1 heq.2
  · exact hold

variable {a : AgentState} {caller : Option Call}

theorem lock_place : (v.place s n a caller).lock s' n' = if s' = s ∧ n' = n then
    some (.place a caller (v.node s n).currentTerm (v.node s n).log.length (v.agents s n))
    else v.lock s' n' := by
  show ((v.setReplica s n _).proposeTick s n).lock s' n' = _
  rw [lock_proposeTick, lock_setReplica]

theorem agents_place : (v.place s n a caller).agents s' n' =
    if s' = s ∧ n' = n then (v.agents s n).set a else v.agents s' n' := by
  show ((v.setReplica s n _).proposeTick s n).agents s' n' = _
  rw [agents_proposeTick, agents_setReplica]

theorem node_place : (v.place s n a caller).node s' n' = if s' = s ∧ n' = n then
    ((v.node s n).propose ((v.agents s n).set a).snapshot).1 else v.node s' n' := by
  show ((v.setReplica s n _).proposeTick s n).node s' n' = _
  rw [node_proposeTick, node_setReplica, agents_setReplica]
  simp

end projections

/-! ### Changes -/

/-- What event `e` may do to the shards. -/
inductive Change (S : Setup) (v : Shards) (e : Event) : Shards → Prop
  /-- Nothing. -/
  | idle : Change S v e v
  /-- A Raft group takes a step in which nothing is applied. -/
  | raft {s : String} {ev : Raft.Event Snapshot} {c : Cluster Snapshot} (he : e = .raft s ev)
      (hc : Cluster.step S.M (v.raft s) ev = some c) (hp : ev.isPropose = false)
      (ha : ∀ n, ev ≠ .applier n) : Change S v e { v with raft := update v.raft s c }
  /-- A replica applies entries. -/
  | applier {s n : String} {c : Cluster Snapshot} (he : e = .raft s (.applier n))
      (hc : Cluster.step S.M (v.raft s) (.applier n) = some c) :
      Change S v e (Shards.setReplica { v with raft := update v.raft s c } s n
        ⟨(v.node s n).applier.2.1.foldl Registry.apply (v.agents s n), v.lock s n⟩)
  /-- A leader's lock is taken, to wait until the registry is caught up. -/
  | take {s n : String} {h : Holder} (hfree : v.lock s n = none)
      (hr : (v.node s n).role = .leader) (ht : h.term = (v.node s n).currentTerm)
      (hi : h.index = (v.node s n).lastIndex) (hnot : Holder.isPlace h = false) :
      Change S v e (v.setReplica s n ⟨v.agents s n, some h⟩)
  /-- A lock is released, the registry stays. -/
  | drop {s n : String} {h : Holder} (hlock : v.lock s n = some h)
      (hwhy : Holder.isPlace h = false ∨ e = .cancelAdd s n ∨
        (v.node s n).state = (h.term, true) ∧ h.index ≤ (v.node s n).lastApplied) :
      Change S v e (v.setReplica s n ⟨v.agents s n, none⟩)
  /-- A failed `add_agent` puts its copy of the registry back. -/
  | restore {s n : String} {a : AgentState} {caller : Option Call} {t i : ℕ} {before : Registry}
      (hlock : v.lock s n = some (.place a caller t i before))
      (hwhy : (v.node s n).state ≠ (t, true) ∧ e = .poll s n ∨
        (v.node s n).state = (t, true) ∧ (v.node s n).lastApplied < i ∧ e = .expire s n) :
      Change S v e (v.setReplica s n ⟨before, none⟩)
  /-- Phase 1 of a tick. -/
  | move {s n : String} (hfree : v.lock s n = none) (hup : caughtUp (v.node s n)) :
      Change S v e ((v.setReplica s n ⟨(v.agents s n).step dt S.grid, none⟩).proposeTick s n)
  /-- `add_agent` proposes. -/
  | place {s n : String} {a : AgentState} {caller : Option Call} {t i : ℕ}
      (hlock : v.lock s n = some (.catchUp a caller t i))
      (hstate : (v.node s n).state = (t, true)) (hi : i ≤ (v.node s n).lastApplied) :
      Change S v e (v.place s n a caller)
  /-- Phase 3 of a tick. -/
  | pop {s n : String} {ids : List String} {t i : ℕ} (he : e = .poll s n)
      (hlock : v.lock s n = some (.remove ids t i))
      (hstate : (v.node s n).state = (t, true)) (hi : i ≤ (v.node s n).lastApplied) :
      Change S v e
        ((v.setReplica s n ⟨ids.foldl Registry.pop (v.agents s n), none⟩).proposeTick s n)

end Shards

open Shards

namespace World

variable {w w' : World} {e : Event}

@[simp] theorem toShards_finish (w : World) (a : AgentState) (ok : Bool) (caller : Option Call) :
    (w.finish a ok caller).toShards = w.toShards := by
  unfold finish
  split
  · rfl
  · split <;> rfl

/-- The end of an `add_agent` starts nothing, and answers one call at most. -/
theorem frame_finish (w : World) (a : AgentState) (ok : Bool) (caller : Option Call) :
    (w.finish a ok caller).tick = w.tick ∧ (w.finish a ok caller).waiting = w.waiting ∧
      (w.finish a ok caller).requests = w.requests ∧
      (w.finish a ok caller).replies.length ≤ w.replies.length + 1 := by
  unfold finish
  split
  · exact ⟨rfl, rfl, rfl, by simp⟩
  · split
    · exact ⟨rfl, rfl, rfl, Nat.le_succ _⟩
    · exact ⟨rfl, rfl, rfl, Nat.le_succ _⟩

@[simp] theorem toShards_next (w : World) (n : String) : (w.next n).toShards = w.toShards := by
  unfold next
  split <;> rfl

theorem state_leader {r : Node Snapshot} {t : ℕ} :
    r.state = (t, true) ↔ r.currentTerm = t ∧ r.role = .leader := by
  simp [Node.state]

theorem poll_change {s n : String} (h : w.poll s n = some w') :
    Change S w.toShards (.poll s n) w'.toShards := by
  unfold poll at h
  dsimp only at h
  split at h
  · cases h
  · -- `add_agent` in `wait_caught_up`
    rename_i a c t i hlock
    split at h
    · cases h
      rw [toShards_finish]
      exact .drop hlock (.inl rfl)
    rename_i hstate
    split at h
    swap
    · cases h
    rename_i hi
    cases h
    have hrole := (state_leader.mp (not_not.mp hstate)).2
    rw [World.place, if_pos hrole]
    exact .place hlock (not_not.mp hstate) hi
  · -- `add_agent` in `_wait_applied`
    rename_i a c t i before hlock
    split at h
    · cases h
      rename_i hstate
      rw [toShards_finish]
      exact .restore hlock (.inl ⟨hstate, rfl⟩)
    rename_i hstate
    split at h
    swap
    · cases h
    rename_i hi
    cases h
    rw [toShards_finish]
    exact .drop hlock (.inr (.inr ⟨not_not.mp hstate, hi⟩))
  · -- a tick in `wait_caught_up`
    rename_i ids t i hlock
    split at h
    · cases h
      rw [toShards_next]
      exact .drop hlock (.inl rfl)
    rename_i hstate
    split at h
    swap
    · cases h
    rename_i hi
    cases h
    rw [toShards_next]
    exact .pop rfl hlock (not_not.mp hstate) hi

theorem expire_change {s n : String} (h : w.expire s n = some w') :
    Change S w.toShards (.expire s n) w'.toShards := by
  unfold expire at h
  dsimp only at h
  split at h
  · cases h
  rename_i ho hlock
  split at h
  · cases h
  rename_i hcond
  push Not at hcond
  obtain ⟨hstate, hlt⟩ := hcond
  split at h <;> cases h
  · rw [toShards_finish]
    exact .drop hlock (.inl rfl)
  · rw [toShards_finish]
    exact .restore hlock (.inr ⟨hstate, hlt, rfl⟩)
  · rw [toShards_next]
    exact .drop hlock (.inl rfl)

theorem acquire_change {k : ℕ} {t : AddCall} (hfree : w.lock t.shard t.node = none) :
    Change S w.toShards e (w.acquire k t).toShards := by
  unfold acquire
  dsimp only
  split
  · rename_i hr
    exact .take hfree (by simpa [Node.state] using hr) rfl rfl rfl
  · rw [toShards_finish]
    exact .idle

theorem startRemove_change {n s : String} {shards : List String} {done : List Departure}
    (hfree : w.lock s n = none) :
    Change S w.toShards e (w.startRemove n s shards done).toShards := by
  unfold startRemove
  dsimp only
  split
  · rename_i hr
    exact .take hfree (by simpa [Node.state] using hr) rfl rfl rfl
  · exact .idle

theorem move_change {s n : String} {shards : List String} {ds : List Departure}
    (hfree : w.lock s n = none) : Change S w.toShards e (w.move S s n shards ds).toShards := by
  unfold World.move
  split
  · exact .idle
  · rename_i hup
    exact .move hfree (not_not.mp hup)

theorem raftStep_change {s : String} {ev : Raft.Event Snapshot} {v v' : Shards}
    (h : v.raftStep S s ev = some v') : Change S v (.raft s ev) v' := by
  unfold raftStep at h
  split at h
  · cases h
  rename_i hp
  obtain ⟨c, hc, rfl⟩ := Option.map_eq_some_iff.mp h
  have hp' : ev.isPropose = false := by simpa using hp
  -- only the applier hands anything to a replica
  cases ev with
  | applier n => exact .applier rfl hc
  | _ => exact .raft rfl hc hp' fun _ => by simp

/-- **Every step does one of the eight changes**, one case for each event. -/
theorem step_change (h : World.step S w e = some w') : Change S w.toShards e w'.toShards := by
  cases e with
  | raft s ev =>
    obtain ⟨v, hv, rfl⟩ := Option.map_eq_some_iff.mp h
    exact raftStep_change hv
  | spawn n a =>
    simp only [World.step] at h
    split at h <;> cases h <;> exact .idle
  | handle k =>
    obtain ⟨c, -, rfl⟩ := Option.map_eq_some_iff.mp h
    unfold handOff
    dsimp only
    split
    · exact .idle
    split
    · exact .idle
    split <;> exact .idle
  | loseRequest k | loseReply k | cancelWaiting k =>
    cases h
    exact .idle
  | acquire k =>
    simp only [World.step] at h
    split at h
    · cases h
    split at h
    · cases h
      rename_i hfree
      exact acquire_change (Option.isNone_iff_eq_none.mp hfree)
    · cases h
  | poll s n => exact poll_change h
  | expire s n => exact expire_change h
  | cancelAdd s n =>
    simp only [World.step] at h
    split at h
    · cases h
      rename_i hlock
      exact .drop hlock (.inr (.inl rfl))
    · cases h
      rename_i hlock
      exact .drop hlock (.inr (.inl rfl))
    · cases h
  | tickStart n | tickTimeout n =>
    simp only [World.step] at h
    split at h <;> cases h
    exact .idle
  | tickVisit n =>
    simp only [World.step] at h
    split at h
    · cases h
      exact .idle
    · split at h <;> cases h <;> exact .idle
    · cases h
  | tickEnter n =>
    simp only [World.step] at h
    split at h
    · split at h
      · cases h
        rename_i hfree
        exact move_change (Option.isNone_iff_eq_none.mp hfree)
      · cases h
    · cases h
  | tickSend n =>
    simp only [World.step] at h
    split at h
    · cases h
      unfold send
      dsimp only
      split <;> exact .idle
    · cases h
      exact .idle
    · cases h
  | tickReply k =>
    simp only [World.step] at h
    split at h
    · cases h
    split at h
    · split at h
      · cases h
        exact .idle
      · cases h
    · cases h
  | tickRemove n =>
    simp only [World.step] at h
    split at h
    · cases h
      exact .idle
    · split at h
      · cases h
        rename_i hfree
        exact startRemove_change (Option.isNone_iff_eq_none.mp hfree)
      · cases h
    · cases h
  | tickKill n =>
    simp only [World.step] at h
    split at h
    · split at h
      · cases h
        rename_i hlock
        exact .drop hlock (.inl rfl)
      · cases h
        exact .idle
    · cases h
      exact .idle

end World

/-! ### What only grows -/

/-- In `v'` everything has been placed and applied that was in `v`, in the same order. -/
structure Later (v v' : Shards) : Prop where
  placed : v.placed <+: v'.placed
  applied : ∀ s n, (v.raft s).applied n <+: (v'.raft s).applied n

theorem Later.refl (v : Shards) : Later v v := ⟨List.prefix_rfl, fun _ _ => List.prefix_rfl⟩

theorem Later.of_eq {v v' : Shards} (hp : v'.placed = v.placed) (hr : v'.raft = v.raft) :
    Later v v' :=
  ⟨by rw [hp], fun s n => by rw [hr]⟩

theorem Later.of_raft {v v' : Shards} {s : String} {c : Cluster Snapshot}
    (hp : v.placed <+: v'.placed) (hr : v'.raft = update v.raft s c)
    (ha : ∀ n, (v.raft s).applied n <+: c.applied n) : Later v v' := by
  refine ⟨hp, fun s' n => ?_⟩
  rw [hr]
  by_cases hs : s' = s
  · subst hs
    rw [Function.update_self]
    exact ha n
  · rw [Function.update_of_ne hs]

/-- Registries and what is placed do not go back. -/
theorem Shards.Change.later {v v' : Shards} {e : Event} (hc : Change S v e v') : Later v v' := by
  cases hc with
  | idle => exact .refl v
  | raft he hc hp ha =>
    refine .of_raft List.prefix_rfl rfl fun n => ?_
    rw [(Raft.step_internal hc hp ha n).2]
  | @applier s n c he hc =>
    obtain ⟨-, ⟨⟩⟩ := Option.ite_none_right_eq_some.mp hc
    refine .of_raft List.prefix_rfl rfl fun m => ?_
    show _ <+: update (v.raft s).applied n _ m
    by_cases hm : m = n
    · subst hm
      rw [Function.update_self]
      exact List.prefix_append _ _
    · rw [Function.update_of_ne hm]
  | take | drop | restore => exact .of_eq rfl rfl
  | move | pop => exact .of_raft List.prefix_rfl rfl fun m => List.prefix_rfl
  | place => exact .of_raft (List.prefix_append _ _) rfl fun m => List.prefix_rfl

/-! ### Histories -/

/-- How the ledgers of the shards grow with a change: not at all, or by a no-op, or by the
registry of a leader that had applied its whole log. -/
def Grown (v v' : Shards) (g g' : String → Ghost Snapshot) : Prop :=
  ∀ s, (g' s).ledger = (g s).ledger ∨ ∃ n f, (v'.node s n).log = (v.node s n).log ++ [f] ∧
    (g' s).ledger = update (g s).ledger f.term ((v.node s n).log ++ [f]) ∧
    (f.command = none ∨ f.command = (v'.agents s n).snapshot ∧ caughtUp (v.node s n) ∧
      (v.node s n).role = .leader)

/-- The histories of the clusters.  The holder of a lock sampled a term that its node won,
and as long as the node leads that term its log is as long as the holder thinks. -/
structure Base (S : Setup) (g : String → Ghost Snapshot) (v : Shards) : Prop where
  sim : ∀ s, Sim S.M (g s) (v.raft s)
  watch : ∀ s n h, v.lock s n = some h → (g s).owner h.term = some n ∧
    ((v.node s n).role = .leader → (v.node s n).currentTerm = h.term →
      (v.node s n).lastIndex = h.index)

theorem base_init (S : Setup) : Base S (fun _ => Ghost.init) (World.init S).toShards where
  sim _ := Raft.sim_init S.M
  watch _ _ _ h := absurd h (by simp [World.init, Shards.lock])

section base

variable {g : String → Ghost Snapshot} {v v' : Shards} {e : Event} {s n : String}

theorem Base.node_ok (h : Base S g v) (s n : String) :
    Raft.NodeOk S.M (g s) n (v.node s n) ((v.raft s).applied n) := (h.sim s).node n

theorem Base.commit_lt (h : Base S g v) (s n : String) :
    (v.node s n).commitIndex < (v.node s n).log.length := (h.sim s).commit_lt n

theorem Base.applier_eq (h : Base S g v) (s n : String) : (v.node s n).applier =
    ({ v.node s n with lastApplied := (v.node s n).commitIndex },
      ((v.node s n).log.take ((v.node s n).commitIndex + 1)).drop ((v.node s n).lastApplied + 1),
      .ok ()) :=
  (h.sim s).applier_eq n

/-- A leader that holds the lock, and has applied what it waits for, has applied all. -/
theorem Base.caughtUp_of_lock (h : Base S g v) {ho : Holder} (hlock : v.lock s n = some ho)
    (hstate : (v.node s n).state = (ho.term, true)) (hi : ho.index ≤ (v.node s n).lastApplied) :
    caughtUp (v.node s n) := by
  obtain ⟨ht, hr⟩ := World.state_leader.mp hstate
  rw [caughtUp, (h.watch s n ho hlock).2 hr ht]
  exact hi

/-- The history moves on in one shard. -/
theorem Base.of_shard {g₁ : Ghost Snapshot} (h : Base S g v)
    (hx : Ext (g s).toState g₁.toState) (hs : Sim S.M g₁ (v'.raft s))
    (hraft : ∀ s' ≠ s, v'.raft s' = v.raft s')
    (hgrow : g₁.ledger = (g s).ledger ∨ ∃ n f, (v'.node s n).log = (v.node s n).log ++ [f] ∧
      g₁.ledger = update (g s).ledger f.term ((v.node s n).log ++ [f]) ∧
      (f.command = none ∨ f.command = (v'.agents s n).snapshot ∧ caughtUp (v.node s n) ∧
        (v.node s n).role = .leader))
    (hwatch : ∀ s' n' ho, v'.lock s' n' = some ho → v.lock s' n' = some ho ∨
      s' = s ∧ g₁.owner ho.term = some n')
    (hidx : ∀ s' n' ho, v'.lock s' n' = some ho → (update g s g₁ s').owner ho.term = some n' →
      (v'.node s' n').role = .leader → (v'.node s' n').currentTerm = ho.term →
      (v'.node s' n').lastIndex = ho.index) :
    ∃ g' : String → Ghost Snapshot, (∀ s', Ext (g s').toState (g' s').toState) ∧
      Grown v v' g g' ∧ Base S g' v' := by
  have hself : ∀ s', s' ≠ s → update g s g₁ s' = g s' := fun s' hs' => Function.update_of_ne hs' _ _
  have hext : ∀ s', Ext (g s').toState (update g s g₁ s').toState := by
    intro s'
    by_cases hs' : s' = s
    · subst hs'
      rwa [Function.update_self]
    · rw [hself s' hs']
      exact Ext.refl _
  -- a lock holder has sampled a term that its node won, before or just now
  have howner : ∀ s' n' ho, v'.lock s' n' = some ho →
      (update g s g₁ s').owner ho.term = some n' := by
    intro s' n' ho hlock
    rcases hwatch s' n' ho hlock with hold | ⟨rfl, hown⟩
    · exact (hext s').owner _ _ (h.watch s' n' ho hold).1
    · rwa [Function.update_self]
  refine ⟨update g s g₁, hext, fun s' => ?_, fun s' => ?_, fun s' n' ho hlock =>
    ⟨howner s' n' ho hlock, hidx s' n' ho hlock (howner s' n' ho hlock)⟩⟩
  · by_cases hs' : s' = s
    · subst hs'
      rwa [Function.update_self]
    · exact .inl (by rw [hself s' hs'])
  · by_cases hs' : s' = s
    · subst hs'
      rwa [Function.update_self]
    · rw [hself s' hs', hraft s' hs']
      exact h.sim s'

/-- Steps of a Raft group keep what a lock holder relies on. -/
theorem Base.watch_raft (h : Base S g v) {ev : Raft.Event Snapshot} {c : Cluster Snapshot}
    (hc : Cluster.step S.M (v.raft s) ev = some c) (hp : ev.isPropose = false) {ho : Holder}
    (hlock : v.lock s n = some ho) (hr : (c.node n).role = .leader)
    (ht : (c.node n).currentTerm = ho.term) : (c.node n).lastIndex = ho.index := by
  obtain ⟨hown, hidx⟩ := h.watch s n ho hlock
  obtain ⟨hterm, ⟨hrole, hlog⟩ | ⟨hrole, -⟩⟩ := Raft.step_leader hc hp n hr
  · rw [Node.lastIndex, hlog]
    exact hidx hrole (hterm ▸ ht)
  · -- a candidate cannot win a term it has won before
    rw [← ht, hterm] at hown
    exact absurd hown (((h.sim s).node n).candidate hrole)

theorem Base.of_raft (h : Base S g v) {ev : Raft.Event Snapshot} {c : Cluster Snapshot}
    (hc : Cluster.step S.M (v.raft s) ev = some c) (hp : ev.isPropose = false)
    (hraft : v'.raft = update v.raft s c) (hlock : v'.lock = v.lock) :
    ∃ g' : String → Ghost Snapshot, (∀ s', Ext (g s').toState (g' s').toState) ∧
      Grown v v' g g' ∧ Base S g' v' := by
  obtain ⟨g₁, hx, hgrow, hs⟩ := (h.sim s).step hc
  have hself : v'.raft s = c := by rw [hraft, Function.update_self]
  have hne : ∀ s' ≠ s, v'.raft s' = v.raft s' := fun s' hs' => by
    rw [hraft, Function.update_of_ne hs']
  -- the cluster writes no snapshot: only a new leader appends, and that is a no-op
  refine h.of_shard hx (hself ▸ hs) hne ?_ (fun s' n' ho hl => .inl (by rwa [← hlock])) ?_
  · rcases hgrow with hl | ⟨n, f, hlog, hl, hf | hf⟩
    · exact .inl hl
    · refine .inr ⟨n, f, ?_, hl, .inl hf⟩
      rw [node, hself]
      exact hlog
    · rw [hf] at hp
      exact absurd hp (by simp [Raft.Event.isPropose])
  · intro s' n' ho hl _ hr ht
    rw [hlock] at hl
    by_cases hs' : s' = s
    · subst hs'
      rw [node, hself] at hr ht ⊢
      exact h.watch_raft hc hp hl hr ht
    · rw [node, hne s' hs'] at hr ht ⊢
      exact (h.watch s' n' ho hl).2 hr ht

/-- Only locks and registries change; a new lock holder is a leader that has sampled its log. -/
theorem Base.of_replica (h : Base S g v) (hraft : v'.raft = v.raft)
    (hlock : ∀ s' n' ho, v'.lock s' n' = some ho → v.lock s' n' = some ho ∨
      (v.node s' n').role = .leader ∧ ho.term = (v.node s' n').currentTerm ∧
        ho.index = (v.node s' n').lastIndex) :
    ∃ g' : String → Ghost Snapshot, (∀ s', Ext (g s').toState (g' s').toState) ∧
      Grown v v' g g' ∧ Base S g' v' := by
  have hnode : v'.node = v.node := by
    unfold node
    rw [hraft]
  refine ⟨g, fun _ => Ext.refl _, fun _ => .inl rfl, fun s' => hraft ▸ h.sim s', ?_⟩
  intro s' n' ho hl
  rw [hnode]
  rcases hlock s' n' ho hl with hold | ⟨hr, ht, hi⟩
  · exact h.watch s' n' ho hold
  · exact ⟨ht ▸ (((h.sim s').node n').leader hr).1, fun _ _ => hi.symm⟩

/-- A replica that has applied its whole log proposes its registry; its lock is free
afterwards, or held by the proposer. -/
theorem Base.of_propose (h : Base S g v) {r : Replica} (hup : caughtUp (v.node s n))
    (hlock : ∀ ho, r.lock = some ho → (v.node s n).role = .leader ∧
      ho.term = (v.node s n).currentTerm ∧ ho.index = (v.node s n).log.length) :
    ∃ g' : String → Ghost Snapshot, (∀ s', Ext (g s').toState (g' s').toState) ∧
      Grown v ((v.setReplica s n r).proposeTick s n) g g' ∧
      Base S g' ((v.setReplica s n r).proposeTick s n) := by
  set v' := (v.setReplica s n r).proposeTick s n with hv'
  have hagents : v'.agents s n = r.agents := by
    rw [hv', agents_proposeTick, agents_setReplica, if_pos ⟨rfl, rfl⟩]
  have hraft : v'.raft s = (v.raft s).set n ((v.node s n).propose r.agents.snapshot).1 := by
    rw [← hagents]
    exact Function.update_self _ _ _
  have hnode : ∀ s' n', ¬ (s' = s ∧ n' = n) → v'.node s' n' = v.node s' n' := fun s' n' hne => by
    rw [hv', node_proposeTick, if_neg hne, node_setReplica]
  have hself : v'.node s n = ((v.node s n).propose r.agents.snapshot).1 := by
    rw [node, hraft, Cluster.set_node_self]
  have key : ∃ g₁ : Ghost Snapshot, Ext (g s).toState g₁.toState ∧ Sim S.M g₁ (v'.raft s) ∧
      (g₁.ledger = (g s).ledger ∨ ∃ n f, (v'.node s n).log = (v.node s n).log ++ [f] ∧
        g₁.ledger = update (g s).ledger f.term ((v.node s n).log ++ [f]) ∧
        (f.command = none ∨ f.command = (v'.agents s n).snapshot ∧ caughtUp (v.node s n) ∧
          (v.node s n).role = .leader)) := by
    rcases (h.sim s).propose n r.agents.snapshot with
      ⟨g₁, hx, hl, hs⟩ | ⟨f, hf, hlog, g₁, hx, hl, hs⟩
    · exact ⟨g₁, hx, hraft ▸ hs, .inl hl⟩
    · have hrole : (v.node s n).role = .leader := by
        by_contra hne
        have hne' : ((v.raft s).node n).role ≠ .leader := hne
        rw [Cluster.set_node_self, Node.propose, if_pos hne'] at hlog
        exact absurd (congrArg List.length hlog) (by simp)
      refine ⟨g₁, hx, hraft ▸ hs, .inr ⟨n, f, ?_, hl, .inr ⟨by rw [hf, hagents], hup, hrole⟩⟩⟩
      rw [node, hraft]
      exact hlog
  -- the lock of this replica, and all others
  obtain ⟨g₁, hx, hs, hgrow⟩ := key
  have hl' : ∀ s' n' ho, v'.lock s' n' = some ho → ¬ (s' = s ∧ n' = n) ∧ v.lock s' n' = some ho ∨
      (s' = s ∧ n' = n) ∧ r.lock = some ho := by
    intro s' n' ho hl
    rw [hv', lock_proposeTick, lock_setReplica] at hl
    split at hl
    · exact .inr ⟨by assumption, hl⟩
    · exact .inl ⟨by assumption, hl⟩
  refine h.of_shard hx hs (fun s' hs' => ?_) hgrow ?_ ?_
  · exact Function.update_of_ne hs' _ _
  · intro s' n' ho hl
    rcases hl' s' n' ho hl with ⟨-, hold⟩ | ⟨⟨rfl, rfl⟩, hnew⟩
    · exact .inl hold
    · obtain ⟨hr, ht, -⟩ := hlock ho hnew
      exact .inr ⟨rfl, hx.owner _ _ (ht ▸ (((h.sim s').node n').leader hr).1)⟩
  · intro s' n' ho hl _ hr ht
    rcases hl' s' n' ho hl with ⟨hne, hold⟩ | ⟨⟨rfl, rfl⟩, hnew⟩
    · rw [hnode s' n' hne] at hr ht ⊢
      exact (h.watch s' n' ho hold).2 hr ht
    · obtain ⟨hrole, -, hidx⟩ := hlock ho hnew
      rw [hself, Node.propose, if_neg (by simp [hrole]), hidx]
      simp [Node.lastIndex]

/-- **Every change is answered by the histories**, one case for each change. -/
theorem Base.change (h : Base S g v) (hc : Change S v e v') :
    ∃ g' : String → Ghost Snapshot, (∀ s', Ext (g s').toState (g' s').toState) ∧
      Grown v v' g g' ∧ Base S g' v' := by
  have hset : ∀ {s n : String} {r : Replica} {s' n' : String} {ho : Holder},
      (v.setReplica s n r).lock s' n' = some ho →
        v.lock s' n' = some ho ∨ (s' = s ∧ n' = n) ∧ r.lock = some ho := by
    intro s n r s' n' ho hl
    rw [lock_setReplica] at hl
    split at hl
    · exact .inr ⟨by assumption, hl⟩
    · exact .inl hl
  cases hc with
  | idle => exact ⟨g, fun _ => Ext.refl _, fun _ => .inl rfl, h⟩
  | raft he hc hp ha => exact h.of_raft hc hp rfl rfl
  | @applier s n c he hc =>
    refine h.of_raft hc rfl rfl ?_
    funext s' n'
    rw [lock_setReplica]
    split
    · rename_i heq
      rw [heq.1, heq.2]
    · rfl
  | take hfree hr ht hi hnot =>
    refine h.of_replica rfl fun s' n' ho hl => ?_
    rcases hset hl with hold | ⟨⟨rfl, rfl⟩, hnew⟩
    · exact .inl hold
    · cases hnew
      exact .inr ⟨hr, ht, hi⟩
  | drop hlock hwhy | restore hlock hwhy =>
    refine h.of_replica rfl fun s' n' ho hl => ?_
    rcases hset hl with hold | ⟨-, hnew⟩
    · exact .inl hold
    · exact absurd hnew (by simp)
  | move hfree hup => exact h.of_propose hup fun ho hl => absurd hl (by simp)
  | @place s n a caller t i hlock hstate hi =>
    obtain ⟨-, hr⟩ := World.state_leader.mp hstate
    obtain ⟨g', hx, hgrow, hbase⟩ := h.of_propose (s := s) (n := n)
      (r := ⟨(v.agents s n).set a, some (.place a caller (v.node s n).currentTerm
        (v.node s n).log.length (v.agents s n))⟩) (h.caughtUp_of_lock hlock hstate hi)
      fun ho hl => by
        cases hl
        exact ⟨hr, rfl, rfl⟩
    exact ⟨g', hx, hgrow, hbase.sim, hbase.watch⟩
  | pop he hlock hstate hi =>
    exact h.of_propose (h.caughtUp_of_lock hlock hstate hi) fun ho hl => absurd hl (by simp)

end base

/-! ### Placements -/

/-- What `add_agent` has proposed is in the ledger of its term. -/
def Recorded (g : Ghost Snapshot) (p : Placement) : Prop :=
  0 < p.index ∧ ∃ e l, (g.ledger p.term)[p.index]? = some e ∧ e.term = p.term ∧
    e.command = some l ∧ p.agent ∈ l

theorem Recorded.ext {g g' : Ghost Snapshot} {p : Placement} (h : Recorded g p)
    (hx : Ext g.toState g'.toState) : Recorded g' p := by
  obtain ⟨hpos, e, l, he, hrest⟩ := h
  exact ⟨hpos, e, l, Ledger.getElem?_of_isPrefix (hx.ledger _) he, hrest⟩

/-- The histories of the clusters, with all that has been placed. -/
structure Past (S : Setup) (g : String → Ghost Snapshot) (v : Shards) : Prop
    extends Base S g v where
  placed : ∀ p ∈ v.placed, Recorded (g p.shard) p

theorem past_init (S : Setup) : Past S (fun _ => Ghost.init) (World.init S).toShards :=
  { base_init S with placed := fun p hp => absurd hp (by simp [World.init]) }

section past

variable {g : String → Ghost Snapshot} {v v' : Shards} {e : Event} {s n : String}

/-- What the leader proposes in `place`. -/
theorem Base.recorded_place {g' : String → Ghost Snapshot} {a : AgentState} {caller : Option Call}
    (h : Base S g v) (h' : Base S g' (v.place s n a caller))
    (hr : (v.node s n).role = .leader) :
    Recorded (g' s) ⟨s, a, (v.node s n).currentTerm, (v.node s n).log.length⟩ := by
  have hnode : (v.place s n a caller).node s n =
      ((v.node s n).propose ((v.agents s n).set a).snapshot).1 := by
    rw [node_place, if_pos ⟨rfl, rfl⟩]
  rw [Node.propose, if_neg (by simp [hr])] at hnode
  -- the log of the leader is the ledger of its term
  have hlead := (((h'.sim s).node n).leader (by
    show ((v.place s n a caller).node s n).role = _
    rw [hnode]
    exact hr)).2.1
  change (g' s).ledger ((v.place s n a caller).node s n).currentTerm =
    ((v.place s n a caller).node s n).log at hlead
  rw [hnode] at hlead
  refine ⟨List.length_pos_iff.mpr ((h.sim s).log_ne_nil n),
    ⟨(v.node s n).currentTerm, (v.node s n).log.length, ((v.agents s n).set a).snapshot⟩,
    ((v.agents s n).set a).agents, ?_, rfl, rfl, Registry.mem_set _ a⟩
  exact hlead ▸ List.getElem?_concat_length

/-- Every change is answered, and what is placed is recorded. -/
theorem Past.change (h : Past S g v) (hc : Change S v e v') :
    ∃ g' : String → Ghost Snapshot, (∀ s', Ext (g s').toState (g' s').toState) ∧
      Grown v v' g g' ∧ Past S g' v' := by
  obtain ⟨g', hx, hgrow, hbase⟩ := h.toBase.change hc
  have hold : ∀ p ∈ v.placed, Recorded (g' p.shard) p := fun p hp => (h.placed p hp).ext (hx _)
  refine ⟨g', hx, hgrow, { hbase with placed := ?_ }⟩
  cases hc with
  | idle | raft | applier | take | drop | restore | move | pop => exact hold
  | place hlock hstate hi =>
    intro p hp
    rcases List.mem_append.mp hp with hp | hp
    · exact hold p hp
    · obtain rfl := List.mem_singleton.mp hp
      exact h.toBase.recorded_place hbase (World.state_leader.mp hstate).2

/-- Along a run of the world the histories grow with it. -/
theorem Past.step {w w' : World} (h : Past S g w.toShards) (hs : World.step S w e = some w') :
    ∃ g' : String → Ghost Snapshot, (∀ s', Ext (g s').toState (g' s').toState) ∧
      Grown w.toShards w'.toShards g g' ∧ Past S g' w'.toShards :=
  h.change (World.step_change hs)

theorem Past.steps {w w' : World} (h : Past S g w.toShards) (hs : Steps S w w') :
    ∃ g' : String → Ghost Snapshot, (∀ s', Ext (g s').toState (g' s').toState) ∧
      Past S g' w'.toShards := by
  refine Run.history (fun w g => Past S g w.toShards)
    (fun g g' => ∀ s', Ext (g s').toState (g' s').toState) (fun _ _ => Ext.refl _)
    (fun h₁ h₂ s' => (h₁ s').trans (h₂ s')) ?_ hs h
  rintro w w' g ⟨e, he⟩ h
  obtain ⟨g', hx, -, h'⟩ := h.step he
  exact ⟨g', hx, h'⟩

theorem Reachable.exists_past {w : World} (h : Reachable S w) :
    ∃ g : String → Ghost Snapshot, Past S g w.toShards := by
  obtain ⟨g, -, hg⟩ := (past_init S).steps h
  exact ⟨g, hg⟩

/-! ### Entries that have been applied -/

/-- The node has applied its log up to `_last_applied`. -/
theorem Base.mem_applied (h : Base S g v) {k : ℕ} {f : LogEntry Snapshot} (hk : 0 < k)
    (hle : k ≤ (v.node s n).lastApplied) (hf : (v.node s n).log[k]? = some f) :
    f ∈ (v.raft s).applied n := by
  rw [(h.node_ok s n).applied]
  refine List.mem_of_getElem? (i := k - 1) ?_
  rw [List.getElem?_drop, show 1 + (k - 1) = k by omega,
    List.getElem?_take_of_lt (Nat.lt_succ_of_le hle)]
  exact hf

theorem Base.getElem?_of_applied (h : Base S g v) {f : LogEntry Snapshot}
    (hf : f ∈ (v.raft s).applied n) :
    (v.node s n).log[f.index]? = some f ∧ f.index ≤ (v.node s n).lastApplied ∧ 0 < f.index := by
  rw [(h.node_ok s n).applied] at hf
  obtain ⟨m, hm⟩ := List.getElem?_of_mem hf
  rw [List.getElem?_drop] at hm
  have hlt := Ledger.lt_length_of_getElem? hm
  rw [List.length_take] at hlt
  rw [List.getElem?_take_of_lt (by omega)] at hm
  have hidx := (h.sim s).index_eq hm
  exact ⟨by rw [hidx]; exact hm, by omega, by omega⟩

/-- Two entries of one term and index in a shard are the same, whoever has them. -/
theorem Base.log_eq_ledger (h : Base S g v) {k : ℕ} {f e : LogEntry Snapshot}
    (hf : (v.node s n).log[k]? = some f) (he : ((g s).ledger f.term)[k]? = some e) : f = e := by
  have hpre := (h.sim s).wellFormed n k f hf
  have := Ledger.getElem?_of_take_isPrefix hpre (Nat.lt_succ_self k) hf
  exact Option.some_inj.mp (this.symm.trans he)

end past

end Region
