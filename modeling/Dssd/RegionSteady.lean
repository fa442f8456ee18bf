/-
Failure-free steps of the world.

* `FailureFree` — an event that is no crash, no loss and no time-out, and whose
  step neither deposes a leader nor makes a second one;
* `Led` — the invariant of runs of such steps: whoever holds or waits for a lock,
  and whoever a tick works for, leads the shard;
* `Tick.Sound` — what a tick relies on, kept by every move of a tick
  (`Tick.Sound.goes`);
* `Turn` — what is then left of a step, with its guards; `Led.turn` — every
  failure-free step is one of these.
-/
import Dssd.RegionDurable

open Function (update)
open Ledger.State (Ext)

namespace Region

open Raft (Cluster LogEntry Membership Node Ghost Sim)

variable {S : Setup} {g g' : String → Ghost Snapshot} {v v' : Shards} {w w' : World} {e : Event}
  {s n : String}

/-! ### Steps without failures -/

/-- No crash, no lost message and no time-out. -/
def Event.Smooth : Event → Prop
  | .raft _ (.stop _) | .raft _ (.loseVoteCall _) | .raft _ (.loseVoteReturn _)
  | .raft _ (.loseAppendCall _) | .raft _ (.loseAppendReturn _) => False
  | .loseRequest _ | .loseReply _ => False
  | .expire _ _ | .tickTimeout _ => False
  | .cancelAdd _ _ | .cancelWaiting _ | .tickKill _ => False
  | _ => True

instance : (e : Event) → Decidable e.Smooth
  | .raft _ (.stop _) | .raft _ (.loseVoteCall _) | .raft _ (.loseVoteReturn _)
  | .raft _ (.loseAppendCall _) | .raft _ (.loseAppendReturn _) => .isFalse id
  | .loseRequest _ | .loseReply _ => .isFalse id
  | .expire _ _ | .tickTimeout _ => .isFalse id
  | .cancelAdd _ _ | .cancelWaiting _ | .tickKill _ => .isFalse id
  | .raft _ (.start _) | .raft _ (.electionTimeout _) | .raft _ (.propose _ _)
  | .raft _ (.replicate _ _ _) | .raft _ (.handleRequestVote _) | .raft _ (.voteReply _)
  | .raft _ (.handleAppendEntries _) | .raft _ (.appendReply _) | .raft _ (.applier _)
  | .spawn _ _ | .handle _ | .acquire _ | .poll _ _ | .tickStart _ | .tickVisit _ | .tickEnter _
  | .tickSend _ | .tickReply _ | .tickRemove _ => .isTrue trivial

/-- Leaders go on leading their terms, and no shard has two. -/
def Steady (S : Setup) (v v' : Shards) : Prop :=
  ∀ s ∈ allShardIds S.grid, ∀ n ∈ S.M.ids,
    ((v.node s n).role = .leader → (v'.node s n).state = (v.node s n).state) ∧
      ∀ m ∈ S.M.ids, (v'.node s n).role = .leader → (v'.node s m).role = .leader → n = m

instance (S : Setup) (v v' : Shards) : Decidable (Steady S v v') := by
  unfold Steady
  infer_instance

/-- No crash, no leader change, no lost message and no time-out. -/
def FailureFree (S : Setup) (w : World) (e : Event) : Prop :=
  e.Smooth ∧ ∀ w' ∈ World.step S w e, Steady S w.toShards w'.toShards

instance (S : Setup) (w : World) (e : Event) : Decidable (FailureFree S w e) := by
  unfold FailureFree
  infer_instance

/-- Node `n` leads shard `s` of the grid. -/
def Shards.Leads (S : Setup) (v : Shards) (s n : String) : Prop :=
  s ∈ allShardIds S.grid ∧ (v.node s n).role = .leader

instance (S : Setup) (v : Shards) (s n : String) : Decidable (v.Leads S s n) := by
  unfold Shards.Leads
  infer_instance

theorem Base.mem_of_leader (h : Base S g v) (hr : (v.node s n).role = .leader) : n ∈ S.M.ids :=
  ((h.node_ok s n).active (by simp [hr])).2

theorem Steady.state (h : Steady S v v') (hb : Base S g v) (hl : v.Leads S s n) :
    (v'.node s n).state = (v.node s n).state :=
  (h s hl.1 n (hb.mem_of_leader hl.2)).1 hl.2

theorem Steady.leads (h : Steady S v v') (hb : Base S g v) (hl : v.Leads S s n) :
    v'.Leads S s n := by
  refine ⟨hl.1, ?_⟩
  have hstate := h.state hb hl
  exact (World.state_leader.mp (hstate.trans (World.state_leader.mpr ⟨rfl, hl.2⟩))).2

theorem Steady.one (h : Steady S v v') (hb : Base S g' v') {m : String} (hn : v'.Leads S s n)
    (hm : v'.Leads S s m) : n = m :=
  (h s hn.1 n (hb.mem_of_leader hn.2)).2 m (hb.mem_of_leader hm.2) hn.2 hm.2

/-! ### Leaders at work -/

namespace Tick

/-- The shards that phase 1 still has to visit. -/
def rest : Tick → List String
  | visit shards _ => shards
  | enter s shards _ => s :: shards
  | _ => []

/-- The shards whose locks a tick will take as a leader. -/
def locks : Tick → List String
  | enter s _ _ => [s]
  | remove shards _ => shards
  | _ => []

/-- The departures a tick has recorded, and not done with. -/
def departures (t : Tick) : List Departure := t.pending ++ t.accepted

/-- The moves of a tick that touch nothing else. -/
inductive Advance (S : Setup) (leads : String → Prop) : Tick → Tick → Prop
  | start : Advance S leads idle (visit (allShardIds S.grid) [])
  | enter {s : String} {shards : List String} {ds : List Departure}
      (hs : leads s) :
      Advance S leads (visit (s :: shards) ds) (enter s shards ds)
  | skip {s : String} {shards : List String} {ds : List Departure} :
      Advance S leads (visit (s :: shards) ds) (visit shards ds)
  | leave {s : String} {shards : List String} {ds : List Departure} :
      Advance S leads (enter s shards ds) (visit shards ds)
  | visited {ds : List Departure} : Advance S leads (visit [] ds) (handOff ds [])
  | drop {d : Departure} {ds done : List Departure} :
      Advance S leads (handOff (d :: ds) done) (handOff ds done)
  | handed {done : List Departure} :
      Advance S leads (handOff [] done) (remove (done.map Departure.shard).eraseDups done)
  | stop {done : List Departure} : Advance S leads (remove [] done) idle

/-- What a step may make of a tick; `has` says who has which agent. -/
inductive Goes (S : Setup) (leads : String → Prop) (has : String → String → Prop) :
    Tick → Tick → Prop
  | advance {t t' : Tick} (h : Advance S leads t t') : Goes S leads has t t'
  | moved {s : String} {shards : List String} {ds new : List Departure}
      (hnew : ∀ d ∈ new, d.shard = s ∧ has s d.agent.id)
      (hids : (new.map fun d => d.agent.id).Nodup) :
      Goes S leads has (enter s shards ds) (visit shards (ds ++ new))
  | sent {c : Call} {ds done : List Departure} :
      Goes S leads has (handOff (c.departure :: ds) done) (await c ds done)
  | replied {c : Call} {ds done done' : List Departure}
      (hdone : ∀ d ∈ done', d ∈ done ∨ d = c.departure) :
      Goes S leads has (await c ds done) (handOff ds done')
  | popped {s : String} {shards : List String} {done : List Departure} :
      Goes S leads has (remove (s :: shards) done) (remove shards done)

/-- A tick works for shards that its node leads, visits each once, and hands off each agent
of a shard at most once. -/
structure Sound (S : Setup) (leads : String → Prop) (t : Tick) : Prop where
  rest : ∀ s ∈ t.rest, s ∈ allShardIds S.grid
  nodup : t.rest.Nodup
  locks : ∀ s ∈ t.locks, leads s
  departures : ∀ d ∈ t.departures, leads d.shard
  pending : (t.pending.map fun d => (d.shard, d.agent.id)).Nodup
  apart : ∀ d ∈ t.pending, d.shard ∉ t.rest

theorem sound_idle (S : Setup) (leads : String → Prop) : Sound S leads idle where
  rest _ h := absurd h (by simp [Tick.rest])
  nodup := List.nodup_nil
  locks _ h := absurd h (by simp [Tick.locks])
  departures _ h := absurd h (by simp [departures, Tick.pending, Tick.accepted])
  pending := List.nodup_nil
  apart _ h := absurd h (by simp [Tick.pending])

theorem Sound.mono {leads leads' : String → Prop} {t : Tick} (h : Sound S leads t)
    (hl : ∀ s, leads s → leads' s) : Sound S leads' t :=
  { h with
    locks := fun s hs => hl s (h.locks s hs)
    departures := fun d hd => hl d.shard (h.departures d hd) }

/-- A tick that goes on with fewer shards and the same or fewer departures. -/
theorem Sound.shrink {leads : String → Prop} {t t' : Tick} (h : Sound S leads t)
    (hrest : t'.rest.Sublist t.rest) (hpending : t'.pending.Sublist t.pending)
    (hlocks : ∀ s ∈ t'.locks, leads s)
    (hdepartures : ∀ d ∈ t'.departures, d ∈ t.departures) : Sound S leads t' where
  rest s hs := h.rest s (hrest.subset hs)
  nodup := h.nodup.sublist hrest
  locks := hlocks
  departures d hd := h.departures d (hdepartures d hd)
  pending := h.pending.sublist (hpending.map _)
  apart d hd hs := h.apart d (hpending.subset hd) (hrest.subset hs)

theorem Sound.advance {leads : String → Prop} {t t' : Tick} (h : Sound S leads t)
    (ha : Advance S leads t t') : Sound S leads t' := by
  have hnone : ∀ s ∈ ([] : List String), leads s := fun s hs => absurd hs (by simp)
  cases ha with
  | start =>
    exact { sound_idle S leads with
      rest := fun _ hs => hs, nodup := nodup_allShardIds _, apart := fun _ hd => absurd hd (by
        simp [Tick.pending]) }
  | enter hs =>
    refine h.shrink (.refl _) (.refl _) (fun s hs' => ?_) fun d hd => hd
    rw [List.mem_singleton.mp hs']
    exact hs
  | skip => exact h.shrink (List.sublist_cons_self _ _) (.refl _) hnone fun d hd => hd
  | leave => exact h.shrink (List.sublist_cons_self _ _) (.refl _) hnone fun d hd => hd
  | visited => exact h.shrink (.refl _) (.refl _) hnone fun d hd => hd
  | drop =>
    exact h.shrink (.refl _) (List.sublist_cons_self _ _) hnone
      fun d hd => List.mem_cons_of_mem _ hd
  | @handed done =>
    refine h.shrink (.refl _) (.refl _) (fun s hs => ?_) fun d hd => hd
    obtain ⟨d, hd, rfl⟩ := List.mem_map.mp (List.mem_eraseDups.mp hs)
    exact h.departures d hd
  | stop => exact sound_idle S leads

/-- Ticks stay sound, one case for each move. -/
theorem Sound.goes {leads : String → Prop} {has : String → String → Prop} {t t' : Tick}
    (h : Sound S leads t) (hg : Goes S leads has t t') : Sound S leads t' := by
  cases hg with
  | advance ha => exact h.advance ha
  | @moved s shards ds new hnew hids =>
    -- the shard that has been visited is not visited again
    have hs := List.nodup_cons.mp h.nodup
    refine ⟨fun s' hs' => h.rest s' (List.mem_cons_of_mem _ hs'), hs.2, fun _ hs' => absurd hs' (by
      simp [Tick.locks]), fun d hd => ?_, ?_, fun d hd => ?_⟩
    · change d ∈ (ds ++ new) ++ [] at hd
      rw [List.append_nil] at hd
      rcases List.mem_append.mp hd with hd | hd
      · exact h.departures d (List.mem_append_left _ hd)
      · rw [(hnew d hd).1]
        exact h.locks s (List.mem_singleton_self s)
    · show ((ds ++ new).map _).Nodup
      rw [List.map_append]
      refine h.pending.append ?_ fun x hx hx' => ?_
      · refine List.Nodup.of_map Prod.snd ?_
        rwa [List.map_map]
      · obtain ⟨d, hd, rfl⟩ := List.mem_map.mp hx
        obtain ⟨d', hd', heq⟩ := List.mem_map.mp hx'
        have hshard : d'.shard = d.shard := congrArg Prod.fst heq
        refine h.apart d hd ?_
        rw [← hshard, (hnew d' hd').1]
        exact List.mem_cons_self ..
    · rcases List.mem_append.mp hd with hd | hd
      · exact fun hs' => h.apart d hd (List.mem_cons_of_mem _ hs')
      · rw [(hnew d hd).1]
        exact hs.1
  | sent => exact h.shrink (.refl _) (.refl _) h.locks fun d hd => hd
  | @replied c ds done done' hdone =>
    refine h.shrink (.refl _) (List.sublist_cons_self _ _) h.locks fun d hd => ?_
    rcases List.mem_append.mp hd with hd | hd
    · exact List.mem_append_left _ (List.mem_cons_of_mem _ hd)
    · rcases hdone d hd with hd | rfl
      · exact List.mem_append_right _ hd
      · exact List.mem_append_left _ (List.mem_cons_self ..)
  | popped =>
    exact h.shrink (.refl _) (.refl _) (fun s hs => h.locks s (List.mem_cons_of_mem _ hs))
      fun d hd => hd

end Tick

/-- **Whoever works in a shard leads it.** -/
structure Led (S : Setup) (w : World) : Prop where
  one : ∀ s n m, w.Leads S s n → w.Leads S s m → n = m
  lock : ∀ s n h, w.lock s n = some h →
    s ∈ allShardIds S.grid ∧ (w.node s n).state = (h.term, true)
  waiting : ∀ t ∈ w.waiting, w.Leads S t.shard t.node
  tick : ∀ n, (w.tick n).Sound S (w.Leads S · n)

theorem led_init (S : Setup) : Led S (World.init S) where
  one _ _ _ h := absurd h.2 (by simp [World.init, Shards.node, Cluster.init, Node.init])
  lock _ _ _ h := absurd h (by simp [World.init, Shards.lock])
  waiting _ h := absurd h (by simp [World.init])
  tick _ := Tick.sound_idle S _

theorem Led.leads_of_lock (h : Led S w) {ho : Holder} (hlock : w.lock s n = some ho) :
    w.Leads S s n :=
  ⟨(h.lock s n ho hlock).1, (World.state_leader.mp (h.lock s n ho hlock).2).2⟩

/-! ### What a step may be -/

/-- What the world may do at event `e` if nothing fails. -/
inductive Turn (S : Setup) (w : World) (e : Event) : World → Prop
  | idle : Turn S w e w
  /-- A Raft group takes a step. -/
  | raft {s : String} {ev : Raft.Event Snapshot} {v : Shards} (he : e = .raft s ev)
      (hv : w.raftStep S s ev = some v) : Turn S w e { w with toShards := v }
  /-- `spawn_agent` calls `add_agent`. -/
  | spawn {s n : String} {a : AgentState} (hlead : w.Leads S s n) :
      Turn S w e { w with waiting := w.waiting ++ [⟨s, n, a, none⟩] }
  /-- `HandOff` calls `add_agent`. -/
  | accept {k : ℕ} {c : Call} (hk : w.requests[k]? = some c)
      (hlead : w.Leads S c.departure.dest c.target) :
      Turn S w e { w with
        requests := w.requests.eraseIdx k
        waiting := w.waiting ++ [⟨c.departure.dest, c.target, c.departure.agent, some c⟩] }
  /-- `HandOff` answers at once. -/
  | refuse {k : ℕ} {c : Call} {reason : String} (hk : w.requests[k]? = some c) :
      Turn S w e { w with
        requests := w.requests.eraseIdx k
        replies := w.replies ++ [(c, ⟨false, reason⟩)] }
  /-- A waiting `add_agent` gets the lock. -/
  | take {k i : ℕ} {t : AddCall} (hk : w.waiting[k]? = some t)
      (hfree : w.lock t.shard t.node = none) :
      Turn S w e ({ w with waiting := w.waiting.eraseIdx k }.setReplica t.shard t.node
        ⟨w.agents t.shard t.node,
          some (.catchUp t.agent t.caller (w.node t.shard t.node).currentTerm i)⟩)
  /-- `add_agent` proposes. -/
  | place {s n : String} {a : AgentState} {caller : Option Call} {t i : ℕ}
      (hlock : w.lock s n = some (.catchUp a caller t i)) :
      Turn S w e { w with
        toShards := w.toShards.place s n a caller
        spawns := w.spawns ++ caller.elim [a.id] fun _ => [] }
  /-- `add_agent` returns `True`. -/
  | finish {s n : String} {a : AgentState} {caller : Option Call} {t i : ℕ} {before : Registry}
      (hlock : w.lock s n = some (.place a caller t i before)) :
      Turn S w e ((w.setReplica s n ⟨w.agents s n, none⟩).finish a true caller)
  /-- Phase 3 of a tick pops what was handed off. -/
  | pop {s n : String} {t i : ℕ} {shards : List String} {done : List Departure}
      (he : e = .poll s n)
      (hlock : w.lock s n =
        some (.remove ((done.filter fun d => d.shard = s).map fun d => d.agent.id) t i))
      (hi : i ≤ (w.node s n).lastApplied) (htick : w.tick n = .remove (s :: shards) done) :
      Turn S w e (((w.setReplica s n
        ⟨((done.filter fun d => d.shard = s).map fun d => d.agent.id).foldl Registry.pop
          (w.agents s n), none⟩).proposeTick s n).setTick n (.remove shards done))
  /-- A tick goes on. -/
  | tick {n : String} {t : Tick} (h : Tick.Advance S (w.Leads S · n) (w.tick n) t) :
      Turn S w e (w.setTick n t)
  /-- Phase 1 of a tick. -/
  | move {s n : String} {shards : List String} {ds : List Departure}
      (htick : w.tick n = .enter s shards ds) (hfree : w.lock s n = none) :
      Turn S w e
        (((w.setReplica s n ⟨(w.agents s n).step dt S.grid, none⟩).proposeTick s n).setTick n
        (.visit shards (ds ++ (((w.agents s n).step dt S.grid).agents.filter fun a =>
          a.shardId S.grid ≠ s).map fun a => ⟨s, a, a.shardId S.grid, w.placed.length⟩)))
  /-- Phase 2 of a tick calls `HandOff`. -/
  | send {n : String} {c : Call} {ds done : List Departure} (hc : c.caller = n)
      (htick : w.tick n = .handOff (c.departure :: ds) done) :
      Turn S w e { w.setTick n (.await c ds done) with
        requests := w.requests ++ [c], nextCall := w.nextCall + 1 }
  /-- The answer is there. -/
  | reply {k : ℕ} {c : Call} {r : HandOffResponse} {ds done : List Departure}
      (hk : w.replies[k]? = some (c, r)) (htick : w.tick c.caller = .await c ds done) :
      Turn S w e ({ w with replies := w.replies.eraseIdx k }.setTick c.caller
        (.handOff ds (if r.accepted = true then done ++ [c.departure] else done)))
  /-- Phase 3 of a tick gets the lock. -/
  | startRemove {s n : String} {i : ℕ} {shards : List String} {done : List Departure}
      (htick : w.tick n = .remove (s :: shards) done) (hfree : w.lock s n = none) :
      Turn S w e (w.setReplica s n ⟨w.agents s n,
        some (.remove ((done.filter fun d => d.shard = s).map fun d => d.agent.id)
          (w.node s n).currentTerm i)⟩)

theorem World.next_eq {shards : List String} {done : List Departure}
    (h : w.tick n = .remove (s :: shards) done) :
    w.next n = w.setTick n (.remove shards done) := by
  unfold World.next
  rw [h]

theorem Led.turn_poll (h : Led S w) (hc : Chain S w) (hs : w.poll s n = some w') :
    Turn S w (.poll s n) w' := by
  unfold World.poll at hs
  dsimp only at hs
  split at hs
  · cases hs
  · rename_i a caller t i hlock
    have hstate : (w.node s n).state = (t, true) := (h.lock s n _ hlock).2
    rw [if_neg (not_not.mpr hstate)] at hs
    obtain ⟨-, ⟨⟩⟩ := Option.ite_none_right_eq_some.mp hs
    rw [World.place, if_pos (World.state_leader.mp hstate).2]
    exact .place hlock
  · rename_i a caller t i before hlock
    have hstate : (w.node s n).state = (t, true) := (h.lock s n _ hlock).2
    rw [if_neg (not_not.mpr hstate)] at hs
    obtain ⟨-, ⟨⟩⟩ := Option.ite_none_right_eq_some.mp hs
    exact .finish hlock
  · rename_i ids t i hlock
    have hstate : (w.node s n).state = (t, true) := (h.lock s n _ hlock).2
    rw [if_neg (not_not.mpr hstate)] at hs
    obtain ⟨hi, ⟨⟩⟩ := Option.ite_none_right_eq_some.mp hs
    obtain ⟨shards, done, htick, rfl⟩ := hc.removing s n ids t i hlock
    -- the tick goes on to the next shard
    convert Turn.pop rfl hlock hi htick using 1
    exact World.next_eq htick

theorem turn_handOff {k : ℕ} {c : Call} (hk : w.requests[k]? = some c) :
    Turn S w e ({ w with requests := w.requests.eraseIdx k }.handOff S c) := by
  unfold World.handOff
  dsimp only
  split
  · exact .refuse hk
  rename_i hdest
  split
  · exact .refuse hk
  rename_i hrole
  split
  · exact .refuse hk
  · refine .accept hk ⟨not_not.mp hdest, ?_⟩
    simpa [Node.state] using hrole

/-- **Every failure-free step is one of the fourteen turns**, one case for each event. -/
theorem Led.turn (h : Led S w) (hc : Chain S w) (hsmooth : e.Smooth)
    (hs : World.step S w e = some w') : Turn S w e w' := by
  cases e with
  | raft s ev =>
    obtain ⟨v, hv, rfl⟩ := Option.map_eq_some_iff.mp hs
    exact .raft rfl hv
  | spawn n a =>
    simp only [World.step] at hs
    split at hs <;> cases hs
    · rename_i hcond
      exact .spawn ⟨hcond.1, by simpa [Node.state] using hcond.2⟩
    · exact .idle
  | handle k =>
    obtain ⟨c, hk, rfl⟩ := Option.map_eq_some_iff.mp hs
    exact turn_handOff hk
  | acquire k =>
    simp only [World.step] at hs
    split at hs
    · cases hs
    rename_i t hk
    obtain ⟨hfree, ⟨⟩⟩ := Option.ite_none_right_eq_some.mp hs
    have hrole := (h.waiting t (List.mem_of_getElem? hk)).2
    unfold World.acquire
    dsimp only
    rw [if_pos (by simp [Node.state, hrole])]
    exact .take hk (Option.isNone_iff_eq_none.mp hfree)
  | poll s n => exact h.turn_poll hc hs
  | tickStart n =>
    simp only [World.step] at hs
    split at hs <;> cases hs
    rename_i ht
    exact .tick (ht ▸ .start)
  | tickVisit n =>
    simp only [World.step] at hs
    split at hs
    · cases hs
      rename_i ds ht
      exact .tick (ht ▸ .visited)
    · rename_i s shards ds ht
      split at hs <;> cases hs
      · rename_i hrole
        have hrest : s ∈ (w.tick n).rest := by
          rw [ht]
          exact List.mem_cons_self ..
        exact .tick (ht ▸ .enter ⟨(h.tick n).rest s hrest, by simpa [Node.state] using hrole⟩)
      · exact .tick (ht ▸ .skip)
    · cases hs
  | tickEnter n =>
    simp only [World.step] at hs
    split at hs
    swap
    · cases hs
    rename_i s shards ds ht
    obtain ⟨hfree, ⟨⟩⟩ := Option.ite_none_right_eq_some.mp hs
    unfold World.move
    split
    · exact .tick (ht ▸ .leave)
    · exact .move ht (Option.isNone_iff_eq_none.mp hfree)
  | tickSend n =>
    simp only [World.step] at hs
    split at hs <;> cases hs
    · rename_i d ds done ht
      unfold World.send
      dsimp only
      split
      · exact .tick (ht ▸ .drop)
      · exact .send (c := ⟨w.nextCall, n, (w.node d.dest n).leaderHint.1,
          (w.node d.dest n).leaderHint.2, d⟩) rfl ht
    · rename_i done ht
      exact .tick (ht ▸ .handed)
  | tickReply k =>
    simp only [World.step] at hs
    split at hs
    · cases hs
    rename_i c r hk
    split at hs
    swap
    · cases hs
    rename_i c' ds done ht
    obtain ⟨rfl, ⟨⟩⟩ := Option.ite_none_right_eq_some.mp hs
    exact .reply hk ht
  | tickRemove n =>
    simp only [World.step] at hs
    split at hs
    · cases hs
      rename_i done ht
      exact .tick (ht ▸ .stop)
    · rename_i s shards done ht
      obtain ⟨hfree, ⟨⟩⟩ := Option.ite_none_right_eq_some.mp hs
      have hlead := (h.tick n).locks s (by rw [ht]; exact List.mem_cons_self ..)
      unfold World.startRemove
      dsimp only
      rw [if_pos (by simp [Node.state, hlead.2])]
      exact .startRemove ht (Option.isNone_iff_eq_none.mp hfree)
    · cases hs
  | loseRequest | loseReply | expire | cancelAdd | cancelWaiting | tickTimeout | tickKill =>
    exact hsmooth.elim

/-! ### Leaders stay at work -/

/-- What a turn does to a tick. -/
theorem Turn.goes (h : Turn S w e w') (m : String) : w'.tick m = w.tick m ∨
    Tick.Goes S (w.Leads S · m) (fun s => (w.agents s m).Has) (w.tick m) (w'.tick m) := by
  have hset : ∀ {n : String} {t : Tick}, w'.tick = update w.tick n t →
      Tick.Goes S (w.Leads S · n) (fun s => (w.agents s n).Has) (w.tick n) t →
        w'.tick m = w.tick m ∨
          Tick.Goes S (w.Leads S · m) (fun s => (w.agents s m).Has) (w.tick m) (w'.tick m) := by
    intro n t heq hgo
    rw [heq]
    by_cases hm : m = n
    · subst hm
      rw [Function.update_self]
      exact .inr hgo
    · exact .inl (Function.update_of_ne hm _ _)
  cases h with
  | idle | raft | spawn | accept | refuse | take | place | startRemove => exact .inl rfl
  | @finish s n a caller =>
    refine .inl ?_
    cases caller <;> rfl
  | pop he hlock hi htick => exact hset rfl (htick ▸ .popped)
  | tick h => exact hset rfl (.advance h)
  | @move s n shards ds htick hfree =>
    refine hset rfl (htick ▸ .moved (fun d hd => ?_) ?_)
    · obtain ⟨a, ha, rfl⟩ := List.mem_map.mp hd
      exact ⟨rfl, Registry.has_step.mp (Registry.has_of_mem (List.mem_filter.mp ha).1)⟩
    · rw [List.map_map]
      exact ((w.agents s n).step dt S.grid).nodup.sublist (List.filter_sublist.map _)
  | send hc htick => exact hset rfl (htick ▸ .sent)
  | @reply k c r ds done hk htick =>
    refine hset rfl (htick ▸ .replied fun d hd => ?_)
    split at hd
    · exact (List.mem_append.mp hd).imp id List.mem_singleton.mp
    · exact .inl hd

/-- A lock is taken by a leader, in its term. -/
theorem Shards.Change.lock_new (hc : Shards.Change S v e v') {ho : Holder}
    (hl : v'.lock s n = some ho) : v.lock s n = some ho ∨
      (v.node s n).role = .leader ∧ ho.term = (v.node s n).currentTerm := by
  have hset : ∀ {u : Shards} {s₁ n₁ : String} {x : Replica}, u.lock = v.lock →
      (∀ ho, x.lock = some ho → v.lock s₁ n₁ = some ho ∨ (v.node s₁ n₁).role = .leader ∧
        ho.term = (v.node s₁ n₁).currentTerm) →
        (u.setReplica s₁ n₁ x).lock s n = some ho → v.lock s n = some ho ∨
          (v.node s n).role = .leader ∧ ho.term = (v.node s n).currentTerm := by
    intro u s₁ n₁ x hu hx hl
    rw [Shards.lock_setReplica, hu] at hl
    split at hl
    · rename_i heq
      obtain ⟨rfl, rfl⟩ := heq
      exact hx _ hl
    · exact .inl hl
  cases hc with
  | idle | raft => exact .inl hl
  | @applier s₁ n₁ c he hc =>
    refine hset (u := { v with raft := update v.raft s₁ c }) rfl ?_ hl
    exact fun ho hx => .inl hx
  | take hfree hr ht hi hnot =>
    refine hset rfl (fun ho hx => ?_) hl
    obtain rfl := Option.some_inj.mp hx
    exact .inr ⟨hr, ht⟩
  | drop | restore => exact hset rfl (fun _ hx => absurd hx (by simp)) hl
  | move | pop =>
    rw [Shards.lock_proposeTick] at hl
    exact hset rfl (fun _ hx => absurd hx (by simp)) hl
  | place hlock hstate hi =>
    rw [Shards.lock_place] at hl
    split at hl
    · rename_i heq
      obtain ⟨rfl, rfl⟩ := heq
      cases hl
      exact .inr ⟨(World.state_leader.mp hstate).2, rfl⟩
    · exact .inl hl

/-- A turn brings only leaders to wait for a lock. -/
theorem Led.waiting_turn (h : Led S w) (ht : Turn S w e w') {t : AddCall} (hw : t ∈ w'.waiting) :
    w.Leads S t.shard t.node := by
  cases ht with
  | spawn hlead =>
    rcases List.mem_append.mp hw with hw | hw
    · exact h.waiting t hw
    · rw [List.mem_singleton.mp hw]
      exact hlead
  | accept hk hlead =>
    rcases List.mem_append.mp hw with hw | hw
    · exact h.waiting t hw
    · rw [List.mem_singleton.mp hw]
      exact hlead
  | take hk hfree => exact h.waiting t (List.mem_of_mem_eraseIdx hw)
  | @finish s n a caller =>
    cases caller <;> exact h.waiting t hw
  | _ => exact h.waiting t hw

/-- Failure-free steps keep leaders at work. -/
theorem Led.step (h : Led S w) (hp : Past S g w.toShards) (hp' : Past S g' w'.toShards)
    (hc' : Chain S w') (hsteady : Steady S w.toShards w'.toShards) (ht : Turn S w e w')
    (hs : World.step S w e = some w') : Led S w' := by
  have hleads : ∀ {s n}, w.Leads S s n → w'.Leads S s n := fun hl => hsteady.leads hp.toBase hl
  have htick : ∀ n, (w'.tick n).Sound S (w'.Leads S · n) := by
    intro m
    refine Tick.Sound.mono ?_ fun s => hleads
    rcases ht.goes m with heq | hgo
    · exact heq ▸ h.tick m
    · exact (h.tick m).goes hgo
  refine ⟨fun s n m => hsteady.one hp'.toBase, fun s n ho hl => ?_,
    fun t hw => hleads (h.waiting_turn ht hw), htick⟩
  -- a holder led the shard in its term before the step, and so it does afterwards
  have hold : w.Leads S s n ∧ ho.term = (w.node s n).currentTerm := by
    rcases (World.step_change hs).lock_new hl with hold | ⟨hr, hterm⟩
    · exact ⟨h.leads_of_lock hold, (World.state_leader.mp (h.lock s n ho hold).2).1.symm⟩
    · refine ⟨⟨?_, hr⟩, hterm⟩
      -- a new holder, whose shard its call or its tick has checked
      have hok := hc'.lock s n
      rw [hl] at hok
      cases ho with
      | catchUp a caller t i => exact hok.1
      | place a caller t i before =>
        obtain ⟨j, -, hcall⟩ := hok
        exact hcall.1
      | remove ids t i =>
        obtain ⟨shards, done, ht', -⟩ := hc'.removing s n ids t i hl
        exact ((htick n).locks s (by rw [ht']; exact List.mem_cons_self ..)).1
  refine ⟨hold.1.1, ?_⟩
  rw [hsteady.state hp.toBase hold.1]
  exact World.state_leader.mpr ⟨hold.2.symm, hold.1.2⟩

end Region
