/-
Hand-off is exactly-once in runs without failures.

* `Shards.home` — the shard that an agent has been placed in last;
* `World.Leaving` — a tick has handed the agent over, and is still to remove it;
* `Home` — the invariant of one agent: the leader of its home has it, whoever else
  has it is about to remove it, and only the leader of its home hands it over;
  `Home.turn` keeps it where nobody places the agent, `Home.spawned` and
  `Home.handed` where somebody does;
* `handed_off_once` — as long as ticks pop only what is their own, an agent that has
  been spawned once is in the registry of one leader, once all ticks are done;
  `handed_off_once_fails` — a failure-free run after which no leader has it.
-/
import Dssd.RegionLoss
import Dssd.RegionSynced
import Dssd.RegionTokens

open Function (update)
open Ledger.State (Ext)

namespace Region

open Raft (Cluster LogEntry Membership Node Ghost Sim)

variable {S : Setup} {g g' : String → Ghost Snapshot} {v v' : Shards} {w w' : World} {e : Event}
  {s n id : String}

/-! ### Homes -/

namespace Shards

/-- The shard in which the agent has been placed last. -/
def home (v : Shards) (id : String) : Option String :=
  (v.placed.filter fun p => p.agent.id = id).getLast?.map Placement.shard

theorem home_of_append {p : Placement} (h : v'.placed = v.placed ++ [p]) :
    v'.home id = if p.agent.id = id then some p.shard else v.home id := by
  unfold home
  rw [h, List.filter_append, List.getLast?_append]
  split
  · rename_i hid
    simp [hid]
  · rename_i hid
    simp [hid]

/-- If the agent has been placed since, it has been placed at home since. -/
theorem exists_of_home {m : ℕ} {p : Placement} (hp : p ∈ v.placed.drop m) (hid : p.agent.id = id)
    (hs : v.home id = some s) : ∃ q ∈ v.placed.drop m, q.shard = s ∧ q.agent.id = id := by
  unfold home at hs
  rw [← List.take_append_drop m v.placed, List.filter_append, List.getLast?_append] at hs
  have hne : (v.placed.drop m).filter (fun p => p.agent.id = id) ≠ [] :=
    List.ne_nil_of_mem (List.mem_filter.mpr ⟨hp, by simpa using hid⟩)
  rw [List.getLast?_eq_some_getLast hne, Option.some_or] at hs
  have hmem := List.mem_filter.mp (List.getLast_mem hne)
  exact ⟨_, hmem.1, Option.some_inj.mp hs, by simpa using hmem.2⟩

end Shards

/-! ### Agents on their way -/

namespace Tick

/-- The departures for which there has been no call yet. -/
def unsent : Tick → List Departure
  | visit _ ds => ds
  | enter _ _ ds => ds
  | handOff ds _ => ds
  | await _ ds _ => ds
  | _ => []

/-- The departures that have been accepted, and whose agents are still to be removed. -/
def handed : Tick → List Departure
  | handOff _ done => done
  | await _ _ done => done
  | remove shards done => done.filter fun d => d.shard ∈ shards
  | _ => []

end Tick

/-- Node `n` has handed the agent over from shard `s`, and is still to remove it. -/
def World.Leaving (w : World) (s n id : String) : Prop :=
  (∃ d ∈ (w.tick n).handed, d.shard = s ∧ d.agent.id = id) ∨
    ∃ c, w.Awaits c ∧ c.caller = n ∧ c.departure.shard = s ∧ c.departure.agent.id = id ∧ w.Placed c

/-- **Where an agent is** that has been spawned at most once. -/
structure Home (S : Setup) (w : World) (id : String) : Prop where
  kept : ∀ s, w.home id = some s → ∃ n, w.Leads S s n ∧ (w.agents s n).Has id
  only : ∀ s n, w.Leads S s n → (w.agents s n).Has id →
    w.home id = some s ∨ w.Leaving s n id
  unsent : ∀ n, ∀ d ∈ (w.tick n).unsent, d.agent.id = id → w.home id = some d.shard
  sent : ∀ c, w.Awaits c → c.departure.agent.id = id → ¬ w.Placed c →
    w.home id = some c.departure.shard
  departed : ∀ n, ∀ d ∈ (w.tick n).departures, d.agent.id = id → w.home id ≠ none

/-! ### What a turn does to departures -/

namespace Tick

section goes

variable {leads : String → Prop} {has : String → String → Prop} {t t' : Tick} {d : Departure}

/-- The agent departs now, in phase 1. -/
def Crosses (has : String → String → Prop) (t : Tick) (d : Departure) : Prop :=
  ∃ shards ds, t = enter d.shard shards ds ∧ has d.shard d.agent.id

theorem Goes.unsent (h : Goes S leads has t t') (hd : d ∈ t'.unsent) :
    d ∈ t.unsent ∨ Crosses has t d := by
  cases h with
  | advance ha =>
    cases ha with
    | drop => exact .inl (List.mem_cons_of_mem _ hd)
    | start | handed | stop => exact absurd hd (by simp [Tick.unsent])
    | _ => exact .inl hd
  | moved hnew hids =>
    rcases List.mem_append.mp hd with hd | hd
    · exact .inl hd
    · obtain ⟨rfl, hhas⟩ := hnew d hd
      exact .inr ⟨_, _, rfl, hhas⟩
  | sent => exact .inl (List.mem_cons_of_mem _ hd)
  | replied hdone => exact .inl hd
  | popped => exact absurd hd (by simp [Tick.unsent])

theorem Goes.departures (h : Goes S leads has t t') (hd : d ∈ t'.departures) :
    d ∈ t.departures ∨ Crosses has t d := by
  cases h with
  | advance ha =>
    cases ha with
    | drop => exact .inl (List.mem_cons_of_mem _ hd)
    | start | stop => exact absurd hd (by simp [Tick.departures, Tick.pending, Tick.accepted])
    | _ => exact .inl hd
  | @moved s shards ds new hnew hids =>
    change d ∈ (ds ++ new) ++ [] at hd
    rw [List.append_nil] at hd
    rcases List.mem_append.mp hd with hd | hd
    · exact .inl (List.mem_append_left _ hd)
    · obtain ⟨rfl, hhas⟩ := hnew d hd
      exact .inr ⟨_, _, rfl, hhas⟩
  | sent => exact .inl hd
  | replied hdone =>
    rcases List.mem_append.mp hd with hd | hd
    · exact .inl (List.mem_append_left _ (List.mem_cons_of_mem _ hd))
    · rcases hdone d hd with hd | rfl
      · exact .inl (List.mem_append_right _ hd)
      · exact .inl (List.mem_append_left _ (List.mem_cons_self ..))
  | popped => exact .inl hd

/-- A tick starts to wait for a call when it sends it. -/
theorem Goes.await {c : Call} {ds done : List Departure}
    (h : Goes S leads has t (.await c ds done)) : c.departure ∈ t.unsent := by
  cases h with
  | advance ha => cases ha
  | sent => exact List.mem_cons_self ..

theorem handed_of_advance (h : Advance S leads t t') (hd : d ∈ t.handed) : d ∈ t'.handed := by
  cases h with
  | drop => exact hd
  | @handed done =>
    refine List.mem_filter.mpr ⟨hd, decide_eq_true ?_⟩
    exact List.mem_eraseDups.mpr (List.mem_map_of_mem hd)
  | _ => exact absurd hd (by simp [Tick.handed])

end goes

theorem mem_departures_of_unsent {t : Tick} {d : Departure} (hd : d ∈ t.unsent) :
    d ∈ t.departures := by
  cases t with
  | visit | enter | handOff => exact List.mem_append_left _ hd
  | await => exact List.mem_append_left _ (List.mem_cons_of_mem _ hd)
  | idle | remove => exact absurd hd (by simp [Tick.unsent])

theorem mem_departures_of_handed {t : Tick} {d : Departure} (hd : d ∈ t.handed) :
    d ∈ t.departures := by
  cases t with
  | handOff | await => exact List.mem_append_right _ hd
  | remove => exact List.mem_append_right _ (List.mem_filter.mp hd).1
  | idle | visit | enter => exact absurd hd (by simp [Tick.handed])

end Tick

theorem World.Awaits.departure {c : Call} (h : w.Awaits c) :
    c.departure ∈ (w.tick c.caller).pending := by
  obtain ⟨ds, done, ht⟩ := h
  rw [ht]
  exact List.mem_cons_self ..

theorem Turn.unsent (h : Turn S w e w') {m : String} {d : Departure}
    (hd : d ∈ (w'.tick m).unsent) : d ∈ (w.tick m).unsent ∨
      Tick.Crosses (fun s => (w.agents s m).Has) (w.tick m) d := by
  rcases h.goes m with heq | hgo
  · exact .inl (heq ▸ hd)
  · exact hgo.unsent hd

theorem Turn.departures (h : Turn S w e w') {m : String} {d : Departure}
    (hd : d ∈ (w'.tick m).departures) : d ∈ (w.tick m).departures ∨
      Tick.Crosses (fun s => (w.agents s m).Has) (w.tick m) d := by
  rcases h.goes m with heq | hgo
  · exact .inl (heq ▸ hd)
  · exact hgo.departures hd

theorem Turn.awaits (h : Turn S w e w') {c : Call} (hc : w'.Awaits c) :
    w.Awaits c ∨ c.departure ∈ (w.tick c.caller).unsent := by
  obtain ⟨ds, done, ht⟩ := hc
  rcases h.goes c.caller with heq | hgo
  · exact .inl ⟨ds, done, heq ▸ ht⟩
  · rw [ht] at hgo
    exact .inr hgo.await

/-- What has been handed over is removed in the end. -/
theorem World.Leaving.turn (h : w.Leaving s n id) (htok : Tokens w) (ht : Turn S w e w') :
    w'.Leaving s n id ∨ ¬ (w'.agents s n).Has id := by
  -- a tick that keeps what it has handed over, and still waits if it did
  have hkeep : (∀ d ∈ (w.tick n).handed, d ∈ (w'.tick n).handed) →
      (∀ c, w.Awaits c → c.caller = n → w'.Awaits c) → w'.Leaving s n id := by
    intro hhanded hawaits
    rcases h with ⟨d, hd, hrest⟩ | ⟨c, ha, hc, hs, hid, hp⟩
    · exact .inl ⟨d, hhanded d hd, hrest⟩
    · have ha' := hawaits c ha hc
      exact .inr ⟨c, ha', hc, hs, hid, hp.turn ht ha'⟩
  have hsame : w'.tick n = w.tick n → w'.Leaving s n id := by
    intro heq
    refine hkeep (heq ▸ fun _ hd => hd) fun c ha hc => ?_
    subst hc
    unfold World.Awaits
    rwa [heq]
  cases ht with
  | idle | raft | spawn | accept | refuse | take | place | startRemove => exact .inl (hsame rfl)
  | @finish s n a caller => exact .inl (hsame (by cases caller <;> rfl))
  | @pop s₁ n₁ t i shards done he hlock hi htick =>
    by_cases hn : n = n₁
    swap
    · exact .inl (hsame (Function.update_of_ne hn _ _))
    subst hn
    rcases h with ⟨d, hd, rfl, rfl⟩ | ⟨c, ⟨ds, done', ha⟩, rfl, -⟩
    · rw [htick] at hd
      obtain ⟨hdone, hshard⟩ := List.mem_filter.mp hd
      rcases List.mem_cons.mp (of_decide_eq_true hshard) with hs | hs
      · -- it is removed now
        refine .inr fun hhas => ?_
        change ((w.toShards.setReplica s₁ n _).agents d.shard n).Has d.agent.id at hhas
        rw [Shards.agents_setReplica, if_pos ⟨hs, rfl⟩] at hhas
        refine (Registry.has_foldl_pop.mp hhas).2 (List.mem_map.mpr ⟨d, ?_, rfl⟩)
        exact List.mem_filter.mpr ⟨hdone, decide_eq_true hs⟩
      · refine .inl (.inl ⟨d, ?_, rfl, rfl⟩)
        show d ∈ (update w.tick n (.remove shards done) n).handed
        rw [Function.update_self]
        exact List.mem_filter.mpr ⟨hdone, decide_eq_true hs⟩
    · exact nomatch htick.symm.trans ha
  | @tick n₁ t ha =>
    by_cases hn : n = n₁
    swap
    · exact .inl (hsame (Function.update_of_ne hn _ _))
    subst hn
    refine .inl (hkeep (fun d hd => ?_) fun c hc hcaller => ?_)
    · show d ∈ (update w.tick n t n).handed
      rw [Function.update_self]
      exact Tick.handed_of_advance ha hd
    · exact World.awaits_setTick ha.not_await hc
  | @move s₁ n₁ shards ds htick hfree =>
    by_cases hn : n = n₁
    swap
    · exact .inl (hsame (Function.update_of_ne hn _ _))
    subst hn
    rcases h with ⟨d, hd, -⟩ | ⟨c, ⟨ds, done', ha⟩, rfl, -⟩
    · rw [htick] at hd
      exact absurd hd (by simp [Tick.handed])
    · exact nomatch htick.symm.trans ha
  | @send n₁ c ds done hc htick =>
    by_cases hn : n = n₁
    swap
    · exact .inl (hsame (Function.update_of_ne hn _ _))
    subst hn
    rcases h with ⟨d, hd, hrest⟩ | ⟨c, ⟨ds, done', ha⟩, rfl, -⟩
    · refine .inl (.inl ⟨d, ?_, hrest⟩)
      rw [htick] at hd
      show d ∈ (update w.tick n _ n).handed
      rw [Function.update_self]
      exact hd
    · exact nomatch htick.symm.trans ha
  | @reply k c r ds done hk htick =>
    by_cases hn : n = c.caller
    swap
    · exact .inl (hsame (Function.update_of_ne hn _ _))
    subst hn
    have hdone : ∀ {d}, d ∈ (if r.accepted = true then done ++ [c.departure] else done) →
        d.shard = s ∧ d.agent.id = id →
          World.Leaving ({ w with replies := w.replies.eraseIdx k }.setTick c.caller
            (.handOff ds (if r.accepted = true then done ++ [c.departure] else done)))
            s c.caller id := by
      intro d hd hrest
      refine .inl ⟨d, ?_, hrest⟩
      show d ∈ (update w.tick c.caller _ c.caller).handed
      rw [Function.update_self]
      exact hd
    rcases h with ⟨d, hd, hrest⟩ | ⟨c', ha, hc, hs, hid, hp⟩
    · rw [htick] at hd
      refine .inl (hdone ?_ hrest)
      split
      · exact List.mem_append_left _ hd
      · exact hd
    · -- the call has been placed, so it has been accepted
      obtain rfl := World.Awaits.eq ha ⟨ds, done, htick⟩ hc
      obtain ⟨σ, hσ, hplaced⟩ := hp
      obtain rfl := htok.unique c' σ (.replied r.accepted) hσ ⟨r, List.mem_of_getElem? hk, rfl⟩
      refine .inl (hdone (d := c'.departure) ?_ ⟨hs, hid⟩)
      rw [if_pos (show r.accepted = true from hplaced)]
      exact List.mem_append_right _ (List.mem_singleton_self _)

/-! ### What a turn does to registries -/

/-- A turn in which `add_agent` does not propose: leaders get no agents, and lose only those
that a tick pops. -/
structure NoPlace (S : Setup) (w : World) (e : Event) (w' : World) : Prop where
  placed : w'.placed = w.placed
  spawns : w'.spawns = w.spawns
  has : ∀ s n id, w.Leads S s n → (w'.agents s n).Has id → (w.agents s n).Has id
  kept : ∀ s n id, w.Leads S s n → (w.agents s n).Has id → (w'.agents s n).Has id ∨
    e = .poll s n ∧ ∃ ids t i shards done, w.lock s n = some (.remove ids t i) ∧
      i ≤ (w.node s n).lastApplied ∧ w.tick n = .remove (s :: shards) done ∧
        ∃ d ∈ done, d.shard = s ∧ d.agent.id = id ∧ id ∈ ids

/-- No registry of a leader changes. -/
theorem NoPlace.of_eq (hp : w'.placed = w.placed) (hs : w'.spawns = w.spawns)
    (ha : ∀ s n, w.Leads S s n → w'.agents s n = w.agents s n) : NoPlace S w e w' where
  placed := hp
  spawns := hs
  has s n id hl hhas := ha s n hl ▸ hhas
  kept s n id hl hhas := .inl (by rwa [ha s n hl])

theorem agents_setReplica_self {o : Option Holder} {s' n' : String} :
    (v.setReplica s n ⟨v.agents s n, o⟩).agents s' n' = v.agents s' n' := by
  rw [Shards.agents_setReplica]
  split
  · rename_i heq
    rw [heq.1, heq.2]
  · rfl

/-- Either `add_agent` proposes, or nobody is placed. -/
theorem Turn.place_or (h : Turn S w e w') (hsync : Synced S g w.toShards)
    (hp : Past S g w.toShards) : NoPlace S w e w' ∨ ∃ s n a caller t i,
      w.lock s n = some (.catchUp a caller t i) ∧ w' = { w with
        toShards := w.toShards.place s n a caller
        spawns := w.spawns ++ caller.elim [a.id] fun _ => [] } := by
  cases h with
  | idle | spawn | accept | refuse | tick | send | reply =>
    exact .inl (.of_eq rfl rfl fun _ _ _ => rfl)
  | raft he hv =>
    exact .inl (.of_eq (Shards.placed_raftStep hv) rfl fun s n hl =>
      hsync.agents_raftStep hp hv hl)
  | take | startRemove => exact .inl (.of_eq rfl rfl fun _ _ _ => agents_setReplica_self)
  | @finish s n a caller =>
    refine .inl (.of_eq ?_ ?_ fun s' n' _ => ?_)
    · rw [World.toShards_finish]
      rfl
    · cases caller <;> rfl
    · rw [World.toShards_finish]
      exact agents_setReplica_self
  | place hl => exact .inr ⟨_, _, _, _, _, _, hl, rfl⟩
  | @move s n shards ds htick hfree =>
    have hagents : ∀ s' n' id, (((w.toShards.setReplica s n
        ⟨(w.agents s n).step dt S.grid, none⟩).proposeTick s n).agents s' n').Has id ↔
          (w.agents s' n').Has id := by
      intro s' n' id
      rw [Shards.agents_proposeTick, Shards.agents_setReplica]
      split
      · rename_i heq
        rw [heq.1, heq.2]
        exact Registry.has_step
      · rfl
    exact .inl ⟨rfl, rfl, fun s' n' id _ hhas => (hagents s' n' id).mp hhas,
      fun s' n' id _ hhas => .inl ((hagents s' n' id).mpr hhas)⟩
  | @pop s n t i shards done he hl hi htick =>
    have hagents : ∀ s' n' id, (((w.toShards.setReplica s n
        ⟨((done.filter fun d => d.shard = s).map fun d => d.agent.id).foldl Registry.pop
          (w.agents s n), none⟩).proposeTick s n).agents s' n').Has id ↔
            (w.agents s' n').Has id ∧ ((s' = s ∧ n' = n) →
              id ∉ (done.filter fun d => d.shard = s).map fun d => d.agent.id) := by
      intro s' n' id
      rw [Shards.agents_proposeTick, Shards.agents_setReplica]
      split
      · rename_i heq
        obtain ⟨rfl, rfl⟩ := heq
        rw [Registry.has_foldl_pop]
        simp
      · rename_i hne
        simp [hne]
    refine .inl ⟨rfl, rfl, fun s' n' id _ hhas => ((hagents s' n' id).mp hhas).1,
      fun s' n' id _ hhas => ?_⟩
    by_cases hpop : s' = s ∧ n' = n ∧
        id ∈ (done.filter fun d => d.shard = s).map fun d => d.agent.id
    · obtain ⟨rfl, rfl, hid⟩ := hpop
      obtain ⟨d, hd, hdid⟩ := List.mem_map.mp hid
      obtain ⟨hdone, hshard⟩ := List.mem_filter.mp hd
      exact .inr ⟨he, _, t, i, shards, done, hl, hi, htick, d, hdone,
        of_decide_eq_true hshard, hdid,
        hid⟩
    · exact .inl ((hagents s' n' id).mpr ⟨hhas, fun heq hid => hpop ⟨heq.1, heq.2, hid⟩⟩)

/-! ### Keeping an agent's home -/

/-- An agent departs from its home. -/
theorem Home.of_crosses (h : Home S w id) (hled : Led S w) {d : Departure}
    (hd : Tick.Crosses (fun s => (w.agents s n).Has) (w.tick n) d) (hid : d.agent.id = id) :
    w.home id = some d.shard := by
  obtain ⟨shards, ds, ht, hhas⟩ := hd
  have hlead := (hled.tick n).locks d.shard (by rw [ht]; exact List.mem_singleton_self _)
  rcases h.only d.shard n hlead (hid ▸ hhas) with
    hhome | ⟨d', hd', -⟩ | ⟨c, ⟨ds', done, ha⟩, rfl, -⟩
  · exact hhome
  · rw [ht] at hd'
    exact absurd hd' (by simp [Tick.handed])
  · exact nomatch ht.symm.trans ha

/-- Nobody places the agent, and the leader of its home keeps it. -/
theorem Home.turn (h : Home S w id) (hled : Led S w) (htok : Tokens w) (ht : Turn S w e w')
    (hleads : ∀ {s n}, w.Leads S s n → w'.Leads S s n) (hhome : w'.home id = w.home id)
    (hnew : ∀ s n, w'.Leads S s n → (w'.agents s n).Has id →
      w.Leads S s n ∧ (w.agents s n).Has id)
    (hkept : ∀ s n, w.Leads S s n → (w.agents s n).Has id → w.home id = some s →
      (w'.agents s n).Has id) : Home S w' id where
  kept s hs := by
    obtain ⟨n, hl, hhas⟩ := h.kept s (hhome ▸ hs)
    exact ⟨n, hleads hl, hkept s n hl hhas (hhome ▸ hs)⟩
  only s n hl hhas := by
    rw [hhome]
    obtain ⟨hl₀, hhas₀⟩ := hnew s n hl hhas
    rcases h.only s n hl₀ hhas₀ with hs | hleaving
    · exact .inl hs
    · exact .inr ((hleaving.turn htok ht).resolve_right (not_not.mpr hhas))
  unsent n d hd hid := by
    rw [hhome]
    rcases ht.unsent hd with hd | hd
    · exact h.unsent n d hd hid
    · exact h.of_crosses hled hd hid
  sent c hc hid hnot := by
    rw [hhome]
    rcases ht.awaits hc with hc₀ | hd
    · exact h.sent c hc₀ hid fun hp => hnot (hp.turn ht hc)
    · exact h.unsent c.caller c.departure hd hid
  departed n d hd hid := by
    rw [hhome]
    rcases ht.departures hd with hd | hd
    · exact h.departed n d hd hid
    · rw [h.of_crosses hled hd hid]
      simp

/-- The agent is placed in shard `s` on node `n`, and nobody else is to hand it over. -/
theorem Home.placed (hl : w'.Leads S s n) (hhas : (w'.agents s n).Has id)
    (hhome : w'.home id = some s)
    (honly : ∀ s' n', w'.Leads S s' n' → (w'.agents s' n').Has id → ¬ (s' = s ∧ n' = n) →
      w'.Leaving s' n' id)
    (hunsent : ∀ n, ∀ d ∈ (w'.tick n).unsent, d.agent.id ≠ id)
    (hsent : ∀ c, w'.Awaits c → c.departure.agent.id = id → w'.Placed c) : Home S w' id where
  kept s' hs' := by
    obtain rfl := Option.some_inj.mp (hhome.symm.trans hs')
    exact ⟨n, hl, hhas⟩
  only s' n' hl' hhas' := by
    by_cases heq : s' = s ∧ n' = n
    · rw [heq.1]
      exact .inl hhome
    · exact .inr (honly s' n' hl' hhas' heq)
  unsent m d hd hid := absurd hid (hunsent m d hd)
  sent c hc hid hnot := absurd (hsent c hc hid) hnot
  departed _ _ _ _ := by
    rw [hhome]
    simp

section place

variable {a : AgentState} {caller : Option Call} {t i : ℕ}

/-- The world after `add_agent` has proposed. -/
theorem home_place (id : String) : (w.toShards.place s n a caller).home id =
    if a.id = id then some s else w.home id :=
  Shards.home_of_append (v := w.toShards)
    (p := ⟨s, a, (w.node s n).currentTerm, (w.node s n).log.length⟩) rfl

theorem leads_place {s' n' : String} (h : w.Leads S s' n') :
    (w.toShards.place s n a caller).Leads S s' n' := by
  refine ⟨h.1, ?_⟩
  rw [Shards.node_place]
  split
  · rename_i heq
    rw [heq.1, heq.2] at h
    rw [Node.propose, if_neg (by simp [h.2])]
    exact h.2
  · exact h.2

theorem leads_of_place {s' n' : String} (h : (w.toShards.place s n a caller).Leads S s' n') :
    w.Leads S s' n' := by
  refine ⟨h.1, ?_⟩
  have hr := h.2
  rw [Shards.node_place] at hr
  split at hr
  · rename_i heq
    rw [heq.1, heq.2]
    rw [Node.propose] at hr
    split at hr <;> exact hr
  · exact hr

/-- `spawn_agent` places an agent that has never been placed. -/
theorem Home.spawned (h : Home S w a.id) (hl : w.Leads S s n) (hnone : w.home a.id = none) :
    Home S { w with
      toShards := w.toShards.place s n a none
      spawns := w.spawns ++ [a.id] } a.id := by
  refine Home.placed (leads_place hl) ?_ ((home_place a.id).trans (if_pos rfl)) ?_ ?_ ?_
  · show ((w.toShards.place s n a none).agents s n).Has a.id
    rw [Shards.agents_place, if_pos ⟨rfl, rfl⟩]
    exact Registry.has_set.mpr (.inl rfl)
  · intro s' n' hl' hhas hne
    change ((w.toShards.place s n a none).agents s' n').Has a.id at hhas
    rw [Shards.agents_place, if_neg hne] at hhas
    exfalso
    rcases h.only s' n' (leads_of_place hl') hhas with hs | ⟨d, hd, -, hid⟩ | ⟨c, hc, -, -, hid, -⟩
    · rw [hnone] at hs
      cases hs
    · exact h.departed n' d (Tick.mem_departures_of_handed hd) hid hnone
    · exact h.departed c.caller c.departure (List.mem_append_left _ hc.departure) hid hnone
  · intro m d hd hid
    have hs := h.unsent m d hd hid
    rw [hnone] at hs
    cases hs
  · intro c hc hid
    exact absurd hnone (h.departed c.caller c.departure (List.mem_append_left _ hc.departure) hid)

/-- `HandOff` places an agent that is handed over. -/
theorem Home.handed {c : Call} (h : Home S w a.id) (hled : Led S w) (htok : Tokens w)
    (hlock : w.lock s n = some (.catchUp a (some c) t i)) (ha : c.departure.agent = a) :
    Home S { w with
      toShards := w.toShards.place s n a (some c)
      spawns := w.spawns ++ [] } a.id := by
  have hσ : w.At c (.adding s n) := ⟨a, t, i, hlock⟩
  have hawaits := htok.awaited c _ hσ
  have hfresh : ¬ w.Placed c := by
    rintro ⟨σ, hc, hp⟩
    rw [htok.unique c σ _ hc hσ] at hp
    exact nomatch hp
  have hhome := h.sent c hawaits (congrArg AgentState.id ha) hfresh
  have hlead : w.Leads S c.departure.shard c.caller :=
    (hled.tick c.caller).departures _ (List.mem_append_left _ hawaits.departure)
  have hturn : Turn S w (.poll s n) { w with
      toShards := w.toShards.place s n a (some c)
      spawns := w.spawns ++ [] } := .place hlock
  have hplaced : World.Placed { w with
      toShards := w.toShards.place s n a (some c)
      spawns := w.spawns ++ [] } c := by
    refine World.placed_iff.mpr (.inl ⟨s, n, a, (w.node s n).currentTerm, (w.node s n).log.length,
      w.agents s n, ?_⟩)
    show (w.toShards.place s n a (some c)).lock s n = _
    rw [Shards.lock_place, if_pos ⟨rfl, rfl⟩]
  refine Home.placed (leads_place (hled.leads_of_lock hlock)) ?_
    ((home_place a.id).trans (if_pos rfl)) ?_ ?_ ?_
  · show ((w.toShards.place s n a (some c)).agents s n).Has a.id
    rw [Shards.agents_place, if_pos ⟨rfl, rfl⟩]
    exact Registry.has_set.mpr (.inl rfl)
  · intro s' n' hl' hhas hne
    change ((w.toShards.place s n a (some c)).agents s' n').Has a.id at hhas
    rw [Shards.agents_place, if_neg hne] at hhas
    rcases h.only s' n' (leads_of_place hl') hhas with hs | hleaving
    · -- this is the shard the agent departed from
      rw [hhome] at hs
      obtain rfl := Option.some_inj.mp hs
      obtain rfl := hled.one _ n' c.caller (leads_of_place hl') hlead
      exact .inr ⟨c, hawaits, rfl, rfl, congrArg AgentState.id ha, hplaced⟩
    · rcases hleaving.turn htok hturn with hleaving | hnot
      · exact hleaving
      · refine absurd ?_ hnot
        show ((w.toShards.place s n a (some c)).agents s' n').Has a.id
        rwa [Shards.agents_place, if_neg hne]
  · -- the tick has no second departure of the agent from this shard
    intro m d hd hid
    have hs := h.unsent m d hd hid
    rw [hhome] at hs
    have hshard := Option.some_inj.mp hs
    have hlead' : w.Leads S d.shard m :=
      (hled.tick m).departures d (Tick.mem_departures_of_unsent hd)
    obtain rfl := hled.one _ m c.caller hlead' (hshard ▸ hlead)
    obtain ⟨ds, done, htick⟩ := hawaits
    change d ∈ (w.tick c.caller).unsent at hd
    have hnodup := (hled.tick c.caller).pending
    rw [htick] at hd hnodup
    refine (List.nodup_cons.mp hnodup).1 (List.mem_map.mpr ⟨d, hd, ?_⟩)
    exact Prod.ext hshard.symm (hid.trans (congrArg AgentState.id ha).symm)
  · intro c' hc' hid
    by_contra hnot
    have hs := h.sent c' hc' hid fun hp => hnot (hp.turn hturn hc')
    rw [hhome] at hs
    have hshard := Option.some_inj.mp hs
    have hlead' : w.Leads S c'.departure.shard c'.caller :=
      (hled.tick c'.caller).departures _ (List.mem_append_left _ (World.Awaits.departure hc'))
    have hcaller := hled.one _ c'.caller c.caller hlead' (hshard ▸ hlead)
    obtain rfl := World.Awaits.eq hc' hawaits hcaller
    exact hnot hplaced

end place

/-! ### Runs -/

namespace World

/-- A tick that wakes up pops only what is its own. -/
def Pops (w : World) : Event → Prop
  | .poll s n => ∀ h ∈ w.lock s n, w.PopsOwn s n h
  | _ => True

instance (w : World) : (e : Event) → Decidable (w.Pops e)
  | .poll s n => inferInstanceAs (Decidable (∀ h ∈ w.lock s n, w.PopsOwn s n h))
  | .raft _ _ | .spawn _ _ | .handle _ | .loseRequest _ | .loseReply _ | .acquire _
  | .expire _ _ | .cancelAdd _ _ | .cancelWaiting _ | .tickStart _ | .tickVisit _ | .tickEnter _
  | .tickSend _ | .tickReply _ | .tickTimeout _ | .tickRemove _ | .tickKill _ => .isTrue trivial

end World

/-- **All agents' homes**, with all that they rest on. -/
structure Homes (S : Setup) (g : String → Ghost Snapshot) (w : World) : Prop where
  past : Past S g w.toShards
  chain : Chain S w
  led : Led S w
  synced : Synced S g w.toShards
  tokens : Tokens w
  spawns : ∀ id, id ∈ w.spawns ↔ w.home id ≠ none
  home : ∀ id, w.spawns.count id ≤ 1 → Home S w id

theorem homes_init (S : Setup) : Homes S (fun _ => Ghost.init) (World.init S) where
  past := past_init S
  chain := chain_init S
  led := led_init S
  synced := synced_init S
  tokens := tokens_init S
  spawns _ := by simp [World.init, Shards.home]
  home _ _ := {
    kept := fun _ hs => nomatch hs
    only := fun _ _ hl => absurd hl.2 (by simp [World.init, Shards.node, Cluster.init, Node.init])
    unsent := fun _ _ hd => nomatch hd
    sent := fun _ ⟨_, _, ht⟩ => nomatch ht
    departed := fun _ _ hd => nomatch hd }

/-- A tick that pops only what is its own leaves agents at home alone. -/
theorem Homes.kept (h : Homes S g w) (hok : w.Pops e) (hno : NoPlace S w e w')
    (hl : w.Leads S s n) (hhas : (w.agents s n).Has id) (hs : w.home id = some s) :
    (w'.agents s n).Has id := by
  refine (hno.kept s n id hl hhas).resolve_right ?_
  rintro ⟨rfl, ids, t, i, shards, done, hlock, hi, htick, d, hd, rfl, rfl, hid⟩
  have hacc : d ∈ (w.tick n).accepted := by rw [htick]; exact hd
  obtain ⟨j, p, hj, hm, -, hpa, -⟩ := h.chain.accepted n d hacc
  have hp : p ∈ w.placed.drop d.mark := by
    refine List.mem_of_getElem? (i := j - d.mark) ?_
    rw [List.getElem?_drop, Nat.add_sub_cancel' hm, hj]
  obtain ⟨q, hq, hqs, hqid⟩ := Shards.exists_of_home hp (congrArg AgentState.id hpa) hs
  exact hok _ hlock (h.led.lock _ n _ hlock).2 hi d hacc rfl hid q hq hqs hqid

/-- A node that gets to lead a shard has no agents there yet. -/
theorem Homes.leads_before (h : Homes S g w) (hp' : Past S g' w'.toShards)
    (hgrow : Grown w.toShards w'.toShards g g') (hsteady : Steady S w.toShards w'.toShards)
    (hs : World.step S w e = some w') (hl : w'.Leads S s n) (hhas : (w'.agents s n).Has id) :
    w.Leads S s n := by
  refine ⟨hl.1, ?_⟩
  by_contra hr
  have hblank := h.synced.blank_of_elected h.past hp' hgrow (World.step_change hs)
    (fun s n ho hlock => (h.led.leads_of_lock hlock).2) hsteady hl hr
  rw [hblank.agents] at hhas
  exact Registry.not_has_empty id hhas

/-- Nobody is placed. -/
theorem Homes.turn (h : Homes S g w) (hok : w.Pops e) (ht : Turn S w e w')
    (hno : NoPlace S w e w') (hleads : ∀ {s n}, w.Leads S s n → w'.Leads S s n)
    (hbefore : ∀ s n id, w'.Leads S s n → (w'.agents s n).Has id → w.Leads S s n) :
    (∀ id, id ∈ w'.spawns ↔ w'.home id ≠ none) ∧
      ∀ id, w'.spawns.count id ≤ 1 → Home S w' id := by
  have hhome : ∀ id, w'.home id = w.home id := fun id => by
    unfold Shards.home
    rw [hno.placed]
  rw [hno.spawns]
  refine ⟨fun id => by rw [hhome]; exact h.spawns id, fun id hcount => ?_⟩
  refine (h.home id hcount).turn h.led h.tokens ht hleads (hhome id) (fun s n hl hhas => ?_)
    fun s n hl hhas hs => h.kept hok hno hl hhas hs
  have hl₀ := hbefore s n id hl hhas
  exact ⟨hl₀, hno.has s n id hl₀ hhas⟩

/-- `add_agent` proposes. -/
theorem Homes.place (h : Homes S g w) {a : AgentState} {caller : Option Call} {t i : ℕ}
    (hlock : w.lock s n = some (.catchUp a caller t i)) :
    (∀ id, id ∈ w.spawns ++ caller.elim [a.id] (fun _ => []) ↔
      (w.toShards.place s n a caller).home id ≠ none) ∧
      ∀ id, (w.spawns ++ caller.elim [a.id] fun _ => []).count id ≤ 1 → Home S { w with
        toShards := w.toShards.place s n a caller
        spawns := w.spawns ++ caller.elim [a.id] fun _ => [] } id := by
  have hother : ∀ id, id ≠ a.id → w.spawns.count id ≤ 1 → Home S { w with
      toShards := w.toShards.place s n a caller
      spawns := w.spawns ++ caller.elim [a.id] fun _ => [] } id := by
    intro id hid hcount
    have hhas : ∀ s' n', ((w.toShards.place s n a caller).agents s' n').Has id ↔
        (w.agents s' n').Has id := by
      intro s' n'
      rw [Shards.agents_place]
      split
      · rename_i heq
        rw [Registry.has_set, heq.1, heq.2]
        exact or_iff_right hid
      · rfl
    exact (h.home id hcount).turn h.led h.tokens (.place (e := .poll s n) hlock) leads_place
      ((home_place id).trans (if_neg (Ne.symm hid)))
      (fun s' n' hl hhas' => ⟨leads_of_place hl, (hhas s' n').mp hhas'⟩)
      fun s' n' _ hhas' _ => (hhas s' n').mpr hhas'
  cases caller with
  | none =>
    refine ⟨fun id => ?_, fun id hcount => ?_⟩
    · rw [home_place]
      show id ∈ w.spawns ++ [a.id] ↔ _
      rw [List.mem_append, List.mem_singleton, h.spawns]
      split
      · rename_i heq
        simp [heq]
      · rename_i hne
        exact or_iff_left (Ne.symm hne)
    · change (w.spawns ++ [a.id]).count id ≤ 1 at hcount
      rw [List.count_append] at hcount
      by_cases hid : id = a.id
      · subst hid
        rw [List.count_singleton_self] at hcount
        have hnone : w.home a.id = none := by
          by_contra hne
          have := List.count_pos_iff.mpr ((h.spawns a.id).mpr hne)
          omega
        exact (h.home a.id (by omega)).spawned (h.led.leads_of_lock hlock) hnone
      · exact hother id hid (by omega)
  | some c =>
    have hok := h.chain.lock s n
    rw [hlock] at hok
    have hagent := (hok.2 c rfl).2.1
    have hawaits := h.tokens.awaited c (.adding s n) ⟨a, t, i, hlock⟩
    refine ⟨fun id => ?_, fun id hcount => ?_⟩
    · rw [home_place]
      show id ∈ w.spawns ++ [] ↔ _
      rw [List.append_nil]
      split
      · rename_i heq
        subst heq
        refine iff_of_true ?_ (by simp)
        by_contra hnot
        have hhome := h.home a.id (by rw [List.count_eq_zero.mpr hnot]; omega)
        exact hnot ((h.spawns a.id).mpr (hhome.departed c.caller c.departure
          (List.mem_append_left _ hawaits.departure) (congrArg AgentState.id hagent)))
      · exact h.spawns id
    · change (w.spawns ++ []).count id ≤ 1 at hcount
      rw [List.append_nil] at hcount
      by_cases hid : id = a.id
      · subst hid
        exact (h.home a.id hcount).handed h.led h.tokens hlock hagent
      · exact hother id hid hcount

/-- **Failure-free steps keep all agents' homes**, as long as ticks pop only their own. -/
theorem Homes.step (h : Homes S g w) (hff : FailureFree S w e) (hok : w.Pops e)
    (hs : World.step S w e = some w') : ∃ g', Homes S g' w' := by
  obtain ⟨g', -, hgrow, hp'⟩ := h.past.step hs
  have hsteady := hff.2 w' hs
  have hc' := h.chain.step h.past hs
  have ht := h.led.turn h.chain hff.1 hs
  have hled' := h.led.step h.past hp' hc' hsteady ht hs
  have hsync' := h.synced.change h.past hp' hgrow (World.step_change hs) hff.1
    (fun s n ho hl => (h.led.lock s n ho hl).2) hsteady
  have hhomes : (∀ id, id ∈ w'.spawns ↔ w'.home id ≠ none) ∧
      ∀ id, w'.spawns.count id ≤ 1 → Home S w' id := by
    rcases ht.place_or h.synced h.past with hno | ⟨s, n, a, caller, t, i, hlock, rfl⟩
    · exact h.turn hok ht hno (fun hl => hsteady.leads h.past.toBase hl)
        fun s n id hl hhas => h.leads_before hp' hgrow hsteady hs hl hhas
    · exact h.place hlock
  exact ⟨g', hp', hc', hled', hsync', h.tokens.turn ht, hhomes.1, hhomes.2⟩

theorem exists_homes (h : ReachableWhere S (fun w e => FailureFree S w e ∧ w.Pops e) w) :
    ∃ g : String → Ghost Snapshot, Homes S g w := by
  refine Run.invariant (P := fun w => ∃ g : String → Ghost Snapshot, Homes S g w) ?_ h
    ⟨_, homes_init S⟩
  rintro w w' ⟨e, ⟨hff, hok⟩, hs⟩ ⟨g, hg⟩
  exact hg.step hff hok hs

/-! ### Exactly once -/

/-- The tick is in its hand-off phase, which ends with the removal of what was handed off. -/
def Tick.HandsOff : Tick → Prop
  | .handOff _ _ | .await _ _ _ | .remove _ _ => True
  | _ => False

instance (t : Tick) : Decidable t.HandsOff := by
  unfold Tick.HandsOff
  split <;> infer_instance

namespace World

/-- No tick is in its hand-off phase, and every leader has applied all it has proposed. -/
def Quiet (S : Setup) (w : World) : Prop :=
  (∀ n ∈ S.M.ids, ¬ (w.tick n).HandsOff) ∧
    ∀ s ∈ allShardIds S.grid, ∀ n ∈ S.M.ids, (w.node s n).role = .leader → caughtUp (w.node s n)

instance (S : Setup) (w : World) : Decidable (w.Quiet S) := by
  unfold Quiet
  infer_instance

end World

/-- An agent that has been spawned once is in the registry of exactly one leader whenever all
is quiet, and every snapshot that a leader proposes is one step on from the last one in its
log, so that none overwrites another's change. -/
def ExactlyOnce (S : Setup) (w : World) : Prop :=
  (w.Quiet S → ∀ id, w.spawns.count id = 1 →
    ∃! x : String × String, w.Leads S x.1 x.2 ∧ (w.agents x.1 x.2).Has id) ∧
  ∀ e w', FailureFree S w e → World.step S w e = some w' → ∀ s n f l, w'.Leads S s n →
    (w'.node s n).log = (w.node s n).log ++ [f] → f.command = some l →
      ∃ r, OneStep S (.decode (lastSnapshot (w.node s n).log)) r ∧ l = r.agents

/-- When all is quiet, nobody is about to remove an agent. -/
theorem World.Quiet.not_leaving (h : w.Quiet S) (hp : Past S g w.toShards) (hl : w.Leads S s n) :
    ¬ w.Leaving s n id := by
  have hidle := h.1 n (hp.mem_of_leader hl.2)
  rintro (⟨d, hd, -⟩ | ⟨c, ⟨ds, done, ht⟩, hc, -⟩)
  · cases htick : w.tick n with
    | handOff | await | remove => exact absurd (by rw [htick]; trivial) hidle
    | idle | visit | enter =>
      rw [htick] at hd
      exact absurd hd (by simp [Tick.handed])
  · rw [← hc, ht] at hidle
    exact absurd trivial hidle

theorem Home.exactly_one (h : Home S w id) (hp : Past S g w.toShards) (hled : Led S w)
    (hquiet : w.Quiet S) (hhome : w.home id ≠ none) :
    ∃! x : String × String, w.Leads S x.1 x.2 ∧ (w.agents x.1 x.2).Has id := by
  obtain ⟨s, hs⟩ := Option.ne_none_iff_exists'.mp hhome
  obtain ⟨n, hl, hhas⟩ := h.kept s hs
  refine ⟨(s, n), ⟨hl, hhas⟩, ?_⟩
  rintro ⟨s', n'⟩ ⟨hl', hhas'⟩
  have hs' := (h.only s' n' hl' hhas').resolve_right (hquiet.not_leaving hp hl')
  obtain rfl := Option.some_inj.mp (hs.symm.trans hs')
  rw [hled.one s n' n hl' hl]

/-- **Hand-off is exactly-once**, in every run without failures in which ticks pop only what
is their own: nobody has placed an agent in a shard since the tick that pops it there
recorded its departure. -/
theorem handed_off_once (h : ReachableWhere S (fun w e => FailureFree S w e ∧ w.Pops e) w) :
    ExactlyOnce S w := by
  obtain ⟨g, hg⟩ := exists_homes h
  constructor
  · intro hquiet id hcount
    have hhome := (hg.spawns id).mp (List.count_pos_iff.mp (by omega))
    exact (hg.home id hcount.le).exactly_one hg.past hg.led hquiet hhome
  · intro e w' hff hs s n f l hl hlog hf
    exact hg.past.oneStep (fun hr _ _ => (hg.synced.leader s n ⟨hl.1, hr⟩).agents)
      (World.step_change hs) hl.2 hlog hf

/-! ### Runs of two nodes -/

/-- The world after a run whose events all meet `ok`. -/
def duoWhere (ok : World → Event → Prop) [∀ w e, Decidable (ok w e)] (es : List Event)
    (h : (Run.execWhere (World.step duo) ok (World.init duo) es).isSome = true) : World :=
  (Run.execWhere (World.step duo) ok (World.init duo) es).get h

theorem duoWhere_reachable {ok : World → Event → Prop} [∀ w e, Decidable (ok w e)]
    {es : List Event} (h : (Run.execWhere (World.step duo) ok (World.init duo) es).isSome = true) :
    ReachableWhere duo ok (duoWhere ok es h) :=
  Run.stepsWhere_get h

/-- Node `n1` hands its agent over and removes it. -/
def duoRemoval : List Event :=
  duoHandOff ++ [.poll "0-0" "n1"] ++ duoCommit "0-0" "n1" "n2" ++ [.tickRemove "n1"]

theorem handed_off_once_duo :
    ∃ w, ReachableWhere duo (fun w e => FailureFree duo w e ∧ w.Pops e) w ∧ w.Quiet duo ∧
      ∃! x : String × String, w.Leads duo x.1 x.2 ∧ (w.agents x.1 x.2).Has "a" :=
  ⟨duoWhere (fun w e => FailureFree duo w e ∧ w.Pops e) duoRemoval (by decide +kernel),
    duoWhere_reachable _, by decide +kernel,
    (handed_off_once (duoWhere_reachable _)).1 (by decide +kernel) "a" (by decide +kernel)⟩

/-- The agent comes back to the shard that is about to remove it, and then nobody has it. -/
theorem handed_off_once_fails : ∃ w, ReachableWhere duo (FailureFree duo) w ∧
    w.spawned = ["a"] ∧ ¬ ExactlyOnce duo w := by
  have hrun : ReachableWhere duo (FailureFree duo)
      (duoWhere (FailureFree duo) duoBounce (by decide +kernel)) := duoWhere_reachable _
  have hquiet : (duoWhere (FailureFree duo) duoBounce (by decide +kernel)).Quiet duo := by
    decide +kernel
  have hspawned : (duoWhere (FailureFree duo) duoBounce (by decide +kernel)).spawned = ["a"] := by
    decide +kernel
  have hcount :
      (duoWhere (FailureFree duo) duoBounce (by decide +kernel)).spawns.count "a" = 1 := by
    decide +kernel
  have hno : ∀ s ∈ allShardIds duo.grid, ∀ n ∈ duo.M.ids,
      ¬ ((duoWhere (FailureFree duo) duoBounce (by decide +kernel)).agents s n).Has "a" := by
    decide +kernel
  -- the world itself is of no further interest
  generalize duoWhere (FailureFree duo) duoBounce _ = w at hrun hquiet hspawned hcount hno
  refine ⟨w, hrun, hspawned, fun h => ?_⟩
  obtain ⟨⟨s, n⟩, ⟨hl, hhas⟩, -⟩ := h.1 hquiet "a" hcount
  have hreach : Reachable duo w :=
    Relation.ReflTransGen.mono (fun _ _ hs => Run.StepWhere.step hs) _ _ hrun
  obtain ⟨g, hp⟩ := hreach.exists_past
  exact hno s hl.1 n (hp.mem_of_leader hl.2) hhas

end Region
