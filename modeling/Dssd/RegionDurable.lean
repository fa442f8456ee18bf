/-
Acceptance means durable, and removal follows acceptance.

* `Chain` — the invariant that follows a hand-off from the departure that a tick
  recorded, over the call, the waiting and the running `add_agent` and the reply,
  to the ids the tick removes; `Chain.step` keeps it;
* `Past.accepts_durable` — when `add_agent` is about to return `True`, its snapshot
  is committed and every later leader has it;
* `Past.removes_durable` — what a tick removes from a shard has been committed in
  the destination, in a hand-off that this very tick made.
-/
import Dssd.RegionSteps
import Dssd.RaftSafety

open Function (update)
open Ledger.State (Ext)

namespace Region

open Raft (Cluster LogEntry Membership Node Ghost Sim)

variable {S : Setup} {g : String → Ghost Snapshot} {v v' : Shards} {w w' : World} {e : Event}
  {s n : String}

/-! ### Departures that have arrived -/

/-- The replica on node `n` has applied the placement. -/
def AppliedOn (v : Shards) (p : Placement) (n : String) : Prop :=
  ∃ f ∈ (v.raft p.shard).applied n, f.term = p.term ∧ f.index = p.index

/-- Some replica has applied the placement. -/
def Landed (v : Shards) (p : Placement) : Prop := ∃ n, AppliedOn v p n

/-- The agent has been placed in its destination since it departed, and that has been applied. -/
def Arrived (v : Shards) (d : Departure) : Prop :=
  ∃ j p, v.placed[j]? = some p ∧ d.mark ≤ j ∧ p.shard = d.dest ∧ p.agent = d.agent ∧ Landed v p

theorem AppliedOn.later {p : Placement} (h : AppliedOn v p n) (hl : Later v v') :
    AppliedOn v' p n := by
  obtain ⟨f, hf, hrest⟩ := h
  exact ⟨f, (hl.applied _ n).subset hf, hrest⟩

theorem Landed.later {p : Placement} (h : Landed v p) (hl : Later v v') : Landed v' p :=
  let ⟨n, hn⟩ := h
  ⟨n, hn.later hl⟩

/-- An entry of the placement's term and index in the applied part of a log is applied. -/
theorem Past.appliedOn (h : Past S g v) {p : Placement} (hp : p ∈ v.placed)
    {f : LogEntry Snapshot} (hf : (v.node p.shard n).log[p.index]? = some f)
    (hft : f.term = p.term) (hle : p.index ≤ (v.node p.shard n).lastApplied) : AppliedOn v p n :=
  ⟨f, h.mem_applied (h.placed p hp).1 hle hf, hft, (h.sim p.shard).index_eq hf⟩

/-- What a replica that has applied the placement has in its log. -/
theorem AppliedOn.entry {p : Placement} (ha : AppliedOn v p n) (h : Past S g v)
    (hp : p ∈ v.placed) : ∃ f l, (v.node p.shard n).log[p.index]? = some f ∧ f.term = p.term ∧
      p.index ≤ (v.node p.shard n).lastApplied ∧ f.command = some l ∧ p.agent ∈ l := by
  obtain ⟨f, hf, hft, hfi⟩ := ha
  obtain ⟨hlog, hle, -⟩ := h.getElem?_of_applied hf
  obtain ⟨-, e, l, he, -, hcmd, hmem⟩ := h.placed p hp
  rw [hfi] at hlog hle
  rw [← hft] at he
  obtain rfl := h.log_eq_ledger hlog he
  exact ⟨f, l, hlog, hft, hle, hcmd, hmem⟩

theorem Arrived.later {d : Departure} (h : Arrived v d) (hl : Later v v') : Arrived v' d := by
  obtain ⟨j, p, hj, hm, hs, ha, hland⟩ := h
  exact ⟨j, p, Ledger.getElem?_of_isPrefix hl.placed hj, hm, hs, ha, hland.later hl⟩

/-- A leader that has applied up to its own placement makes it land. -/
theorem Past.landed (h : Past S g v) {p : Placement} {n : String} (hp : p ∈ v.placed)
    (hstate : (v.node p.shard n).state = (p.term, true))
    (hi : p.index ≤ (v.node p.shard n).lastApplied) : Landed v p := by
  obtain ⟨-, f, l, hf, hft, -⟩ := h.placed p hp
  obtain ⟨ht, hr⟩ := World.state_leader.mp hstate
  have hled := ((h.node_ok p.shard n).leader hr).2.1
  rw [ht] at hled
  rw [hled] at hf
  exact ⟨n, h.appliedOn hp hf hft hi⟩

/-- What has landed is committed somewhere: a snapshot with the agent in it. -/
theorem Past.committed_of_landed (h : Past S g v) {p : Placement} (hp : p ∈ v.placed)
    (hland : Landed v p) : ∃ n f l, p.index ≤ (v.node p.shard n).commitIndex ∧
      (v.node p.shard n).log[p.index]? = some f ∧ f.term = p.term ∧ f.command = some l ∧
        p.agent ∈ l := by
  obtain ⟨n, hn⟩ := hland
  obtain ⟨f, l, hf, hft, hle, hcmd, hmem⟩ := hn.entry h hp
  exact ⟨n, f, l, hle.trans (h.node_ok p.shard n).lastApplied, hf, hft, hcmd, hmem⟩

/-! ### Following a hand-off -/

namespace Tick

/-- The departures a tick has not had an answer for. -/
def pending : Tick → List Departure
  | visit _ ds => ds
  | enter _ _ ds => ds
  | handOff ds _ => ds
  | await c ds _ => c.departure :: ds
  | _ => []

/-- The departures whose hand-off was accepted. -/
def accepted : Tick → List Departure
  | handOff _ done => done
  | await _ _ done => done
  | remove _ done => done
  | _ => []

end Tick

/-- What `add_agent` in shard `s` does for agent `a` is what its caller asked for, which
departed before the first `m` placements were made. -/
def CallOk (S : Setup) (m : ℕ) (s : String) (a : AgentState) (caller : Option Call) : Prop :=
  s ∈ allShardIds S.grid ∧
    ∀ c, caller = some c → c.departure.dest = s ∧ c.departure.agent = a ∧ c.departure.mark ≤ m

/-- The holder of a lock in shard `s`. -/
def LockOk (S : Setup) (v : Shards) (s : String) : Option Holder → Prop
  | some (.catchUp a caller _ _) => CallOk S v.placed.length s a caller
  | some (.place a caller t i _) => ∃ j, v.placed[j]? = some ⟨s, a, t, i⟩ ∧ CallOk S j s a caller
  | _ => True

/-- **The chain of a hand-off**, from the departure to the removal. -/
structure Chain (S : Setup) (w : World) : Prop where
  placed : ∀ p ∈ w.placed, p.shard ∈ allShardIds S.grid
  pending : ∀ n, ∀ d ∈ (w.tick n).pending, d.mark ≤ w.placed.length
  requests : ∀ c ∈ w.requests, c.departure.mark ≤ w.placed.length
  waiting : ∀ t ∈ w.waiting, CallOk S w.placed.length t.shard t.agent t.caller
  lock : ∀ s n, LockOk S w.toShards s (w.lock s n)
  replies : ∀ x ∈ w.replies, x.2.accepted = true → Arrived w.toShards x.1.departure
  accepted : ∀ n, ∀ d ∈ (w.tick n).accepted, Arrived w.toShards d
  removing : ∀ s n ids t i, w.lock s n = some (.remove ids t i) → ∃ shards done,
    w.tick n = .remove (s :: shards) done ∧
      ids = (done.filter fun d => d.shard = s).map fun d => d.agent.id
  spawned : ∀ id ∈ w.spawned, ∃ p ∈ w.placed, p.agent.id = id ∧ Landed w.toShards p

theorem CallOk.mono {m m' : ℕ} {s : String} {a : AgentState} {caller : Option Call}
    (h : CallOk S m s a caller) (hm : m ≤ m') : CallOk S m' s a caller :=
  ⟨h.1, fun c hc =>
    let ⟨h₁, h₂, h₃⟩ := h.2 c hc
    ⟨h₁, h₂, h₃.trans hm⟩⟩

theorem LockOk.later {o : Option Holder} (h : LockOk S v s o) (hl : Later v v') :
    LockOk S v' s o := by
  cases o with
  | none => trivial
  | some ho =>
    cases ho with
    | catchUp a caller t i => exact CallOk.mono h hl.placed.length_le
    | place a caller t i before =>
      obtain ⟨j, hj, hcall⟩ := h
      exact ⟨j, Ledger.getElem?_of_isPrefix hl.placed hj, hcall⟩
    | remove ids t i => trivial

theorem chain_init (S : Setup) : Chain S (World.init S) where
  placed _ h := absurd h (by simp [World.init])
  pending _ _ h := absurd h (by simp [World.init, Tick.pending])
  requests _ h := absurd h (by simp [World.init])
  waiting _ h := absurd h (by simp [World.init])
  lock _ _ := trivial
  replies _ h := absurd h (by simp [World.init])
  accepted _ _ h := absurd h (by simp [World.init, Tick.accepted])
  removing _ _ _ _ _ h := absurd h (by simp [World.init, Shards.lock])
  spawned _ h := absurd h (by simp [World.init])

/-! ### Frame rules -/

/-- The shards move on; locks are released, or taken by callers that are in order. -/
theorem Chain.shards (h : Chain S w) (hl : Later w.toShards v')
    (hplaced : ∀ p ∈ v'.placed, p ∈ w.placed ∨ p.shard ∈ allShardIds S.grid)
    (hlock : ∀ s n, v'.lock s n = w.lock s n ∨ LockOk S v' s (v'.lock s n) ∧
      ∀ ids t i, v'.lock s n = some (.remove ids t i) → ∃ shards done,
        w.tick n = .remove (s :: shards) done ∧
          ids = (done.filter fun d => d.shard = s).map fun d => d.agent.id) :
    Chain S { w with toShards := v' } where
  placed p hp := (hplaced p hp).elim (h.placed p) id
  pending n d hd := (h.pending n d hd).trans hl.placed.length_le
  requests c hc := (h.requests c hc).trans hl.placed.length_le
  waiting t ht := (h.waiting t ht).mono hl.placed.length_le
  lock s n := by
    show LockOk S v' s (v'.lock s n)
    rcases hlock s n with heq | ⟨hok, -⟩
    · rw [heq]
      exact (h.lock s n).later hl
    · exact hok
  replies x hx ha := (h.replies x hx ha).later hl
  accepted n d hd := (h.accepted n d hd).later hl
  removing s n ids t i hids := by
    rcases hlock s n with heq | ⟨-, hrem⟩
    · exact h.removing s n ids t i (heq.symm.trans hids)
    · exact hrem ids t i hids
  spawned id hid := by
    obtain ⟨p, hp, hpid, hland⟩ := h.spawned id hid
    exact ⟨p, hl.placed.subset hp, hpid, hland.later hl⟩

/-- One replica changes; its lock is released or taken by a caller that is in order. -/
theorem Chain.setReplica (h : Chain S w) {r : Replica} (hok : LockOk S w.toShards s r.lock)
    (hrem : ∀ ids t i, r.lock = some (.remove ids t i) → ∃ shards done,
      w.tick n = .remove (s :: shards) done ∧
        ids = (done.filter fun d => d.shard = s).map fun d => d.agent.id) :
    Chain S (w.setReplica s n r) := by
  refine h.shards (.of_eq rfl rfl) (fun _ => .inl) fun s' n' => ?_
  rw [Shards.lock_setReplica]
  split
  · rename_i heq
    obtain ⟨rfl, rfl⟩ := heq
    refine .inr ⟨?_, hrem⟩
    exact hok.later (.of_eq rfl rfl)
  · exact .inl rfl

theorem Chain.release (h : Chain S w) (s n : String) (r : Registry) :
    Chain S (w.setReplica s n ⟨r, none⟩) :=
  h.setReplica trivial fun _ _ _ hl => absurd hl (by simp)

theorem Chain.proposeTick (h : Chain S w) (s n : String) : Chain S (w.proposeTick s n) :=
  h.shards (.of_raft List.prefix_rfl rfl fun _ => List.prefix_rfl) (fun _ => .inl)
    fun _ _ => .inl rfl

/-- A call of `add_agent` returns, and if it returns `True` its placement has landed. -/
theorem Chain.finish (h : Chain S w) {a : AgentState} {ok : Bool} {caller : Option Call}
    (hok : ok = true → ∃ j p, w.placed[j]? = some p ∧ p.shard = s ∧ p.agent = a ∧
      CallOk S j s a caller ∧ Landed w.toShards p) : Chain S (w.finish a ok caller) := by
  unfold World.finish
  cases caller with
  | none =>
    dsimp only
    split
    · rename_i htrue
      obtain ⟨j, p, hj, -, hpa, -, hland⟩ := hok htrue
      refine { h with spawned := fun id hid => ?_ }
      rcases List.mem_append.mp hid with hid | hid
      · exact h.spawned id hid
      · obtain rfl := List.mem_singleton.mp hid
        exact ⟨p, List.mem_of_getElem? hj, by rw [hpa], hland⟩
    · exact h
  | some c =>
    refine { h with replies := fun x hx ha => ?_ }
    rcases List.mem_append.mp hx with hx | hx
    · exact h.replies x hx ha
    · obtain rfl := List.mem_singleton.mp hx
      cases ok with
      | false => exact absurd ha (by simp)
      | true =>
        obtain ⟨j, p, hj, hps, hpa, hcall, hland⟩ := hok rfl
        obtain ⟨hdest, hagent, hmark⟩ := hcall.2 c rfl
        exact ⟨j, p, hj, hmark, hps.trans hdest.symm, hpa.trans hagent.symm, hland⟩

theorem Chain.finish_false (h : Chain S w) (a : AgentState) (caller : Option Call) :
    Chain S (w.finish a false caller) :=
  h.finish (s := "") fun hf => absurd hf (by simp)

theorem Chain.pending_of (h : Chain S w) {t : Tick} (ht : w.tick n = t) {d : Departure}
    (hd : d ∈ t.pending) : d.mark ≤ w.placed.length :=
  h.pending n d (ht ▸ hd)

theorem Chain.accepted_of (h : Chain S w) {t : Tick} (ht : w.tick n = t) {d : Departure}
    (hd : d ∈ t.accepted) : Arrived w.toShards d :=
  h.accepted n d (ht ▸ hd)

/-- The tick of a node that removes nothing right now moves on. -/
theorem Chain.setTick (h : Chain S w) {t : Tick}
    (hno : ∀ s ids u i, w.lock s n ≠ some (.remove ids u i))
    (hp : ∀ d ∈ t.pending, d.mark ≤ w.placed.length)
    (ha : ∀ d ∈ t.accepted, Arrived w.toShards d) : Chain S (w.setTick n t) where
  placed := h.placed
  pending m d hd := by
    change d ∈ (update w.tick n t m).pending at hd
    by_cases hm : m = n
    · subst hm
      rw [Function.update_self] at hd
      exact hp d hd
    · rw [Function.update_of_ne hm] at hd
      exact h.pending m d hd
  requests := h.requests
  waiting := h.waiting
  lock := h.lock
  replies := h.replies
  accepted m d hd := by
    change d ∈ (update w.tick n t m).accepted at hd
    by_cases hm : m = n
    · subst hm
      rw [Function.update_self] at hd
      exact ha d hd
    · rw [Function.update_of_ne hm] at hd
      exact h.accepted m d hd
  removing s m ids u i hl := by
    have hm : m ≠ n := fun hm => hno s ids u i (hm ▸ hl)
    show ∃ shards done, update w.tick n t m = _ ∧ _
    rw [Function.update_of_ne hm]
    exact h.removing s m ids u i hl
  spawned := h.spawned

/-- Only a tick in phase 3 holds a lock. -/
theorem Chain.no_remove (h : Chain S w) (hn : ∀ shards done, w.tick n ≠ .remove shards done)
    (s : String) (ids : List String) (t i : ℕ) : w.lock s n ≠ some (.remove ids t i) := fun hl =>
  let ⟨_, _, ht, _⟩ := h.removing s n ids t i hl
  hn _ _ ht

/-- A tick in phase 3 that has released the lock of the shard it was at. -/
theorem Chain.no_remove_of_free (h : Chain S w) {shards : List String} {done : List Departure}
    (ht : w.tick n = .remove (s :: shards) done) (hfree : w.lock s n = none) (s' : String)
    (ids : List String) (t i : ℕ) : w.lock s' n ≠ some (.remove ids t i) := by
  intro hl
  obtain ⟨shards', done', ht', -⟩ := h.removing s' n ids t i hl
  rw [ht] at ht'
  obtain ⟨⟨rfl, -⟩, -⟩ : (s = s' ∧ shards = shards') ∧ done = done' := by simpa using ht'
  rw [hfree] at hl
  exact absurd hl (by simp)

/-- The tick of a node goes on after it has released the lock of shard `s`. -/
theorem Chain.next (h : Chain S w) (hfree : w.lock s n = none)
    (ht : ∃ shards done, w.tick n = .remove (s :: shards) done) : Chain S (w.next n) := by
  obtain ⟨shards, done, ht⟩ := ht
  unfold World.next
  rw [ht]
  exact h.setTick (h.no_remove_of_free ht hfree) (List.forall_mem_nil _)
    fun _ hd => h.accepted_of ht hd

/-! ### Steps -/

theorem Shards.placed_raftStep {ev : Raft.Event Snapshot} (h : v.raftStep S s ev = some v') :
    v'.placed = v.placed := by
  unfold raftStep at h
  split at h
  · cases h
  obtain ⟨c, -, rfl⟩ := Option.map_eq_some_iff.mp h
  dsimp only
  split <;> rfl

theorem Shards.lock_raftStep {ev : Raft.Event Snapshot} (h : v.raftStep S s ev = some v') :
    v'.lock = v.lock := by
  unfold raftStep at h
  split at h
  · cases h
  obtain ⟨c, -, rfl⟩ := Option.map_eq_some_iff.mp h
  dsimp only
  split
  · funext s' n'
    rw [lock_setReplica]
    split
    · rename_i heq
      rw [heq.1, heq.2]
    · rfl
  · rfl

theorem Chain.place (h : Chain S w) {a : AgentState} {caller : Option Call}
    (hcall : CallOk S w.placed.length s a caller) :
    Chain S { w with toShards := w.toShards.place s n a caller } := by
  refine h.shards (.of_raft (List.prefix_append _ _) rfl fun _ => List.prefix_rfl) (fun p hp => ?_)
    fun s' n' => ?_
  · rcases List.mem_append.mp hp with hp | hp
    · exact .inl hp
    · rw [List.mem_singleton.mp hp]
      exact .inr hcall.1
  rw [Shards.lock_place]
  split
  · rename_i heq
    obtain ⟨rfl, rfl⟩ := heq
    refine .inr ⟨⟨w.placed.length, List.getElem?_concat_length, hcall⟩, fun ids t i hl => ?_⟩
    cases hl
  · exact .inl rfl

theorem Chain.poll (h : Chain S w) (hp : Past S g w.toShards) (hs : w.poll s n = some w') :
    Chain S w' := by
  have hok := h.lock s n
  unfold World.poll at hs
  dsimp only at hs
  split at hs
  · cases hs
  · rename_i a caller t i hlock
    rw [hlock] at hok
    split at hs
    · cases hs
      exact (h.release s n _).finish_false a caller
    rename_i hstate
    split at hs
    swap
    · cases hs
    cases hs
    rw [World.place, if_pos (World.state_leader.mp (not_not.mp hstate)).2]
    exact { h.place (n := n) hok with }
  · rename_i a caller t i before hlock
    rw [hlock] at hok
    split at hs
    · cases hs
      exact (h.release s n _).finish_false a caller
    rename_i hstate
    split at hs
    swap
    · cases hs
    rename_i hi
    cases hs
    -- the placement it waited for has been applied
    obtain ⟨j, hj, hcall⟩ := hok
    refine (h.release s n _).finish fun _ => ⟨j, ⟨s, a, t, i⟩, hj, rfl, rfl, hcall, ?_⟩
    exact (hp.landed (List.mem_of_getElem? hj) (not_not.mp hstate) hi).later (.of_eq rfl rfl)
  · rename_i ids t i hlock
    obtain ⟨shards, done, ht, -⟩ := h.removing s n ids t i hlock
    split at hs
    · cases hs
      exact (h.release s n _).next Shards.lock_setReplica_self ⟨shards, done, ht⟩
    split at hs
    swap
    · cases hs
    cases hs
    exact ((h.release s n _).proposeTick s n).next Shards.lock_setReplica_self ⟨shards, done, ht⟩

theorem Chain.expire (h : Chain S w) (hs : w.expire s n = some w') : Chain S w' := by
  unfold World.expire at hs
  dsimp only at hs
  split at hs
  · cases hs
  rename_i ho hlock
  split at hs
  · cases hs
  split at hs <;> cases hs
  · exact (h.release s n _).finish_false _ _
  · exact (h.release s n _).finish_false _ _
  · obtain ⟨shards, done, ht, -⟩ := h.removing _ _ _ _ _ hlock
    exact (h.release s n _).next Shards.lock_setReplica_self ⟨shards, done, ht⟩

theorem Chain.acquire (h : Chain S w) {k : ℕ} {t : AddCall} (hk : w.waiting[k]? = some t) :
    Chain S (w.acquire k t) := by
  have h₁ : Chain S { w with waiting := w.waiting.eraseIdx k } :=
    { h with waiting := fun u hu => h.waiting u (List.mem_of_mem_eraseIdx hu) }
  unfold World.acquire
  dsimp only
  split
  · exact h₁.setReplica (h.waiting t (List.mem_of_getElem? hk)) fun _ _ _ hl => absurd hl (by simp)
  · exact h₁.finish_false _ _

theorem Chain.handOff (h : Chain S w) {c : Call} (hc : c.departure.mark ≤ w.placed.length) :
    Chain S (w.handOff S c) := by
  have hrefuse : ∀ reason : String,
      Chain S { w with replies := w.replies ++ [(c, ⟨false, reason⟩)] } := by
    intro reason
    refine { h with replies := fun x hx ha => ?_ }
    rcases List.mem_append.mp hx with hx | hx
    · exact h.replies x hx ha
    · obtain rfl := List.mem_singleton.mp hx
      exact absurd ha (by simp)
  unfold World.handOff
  dsimp only
  split
  · exact hrefuse _
  rename_i hdest
  split
  · exact hrefuse _
  split
  · exact hrefuse _
  · refine { h with waiting := fun t ht => ?_ }
    rcases List.mem_append.mp ht with ht | ht
    · exact h.waiting t ht
    · obtain rfl := List.mem_singleton.mp ht
      refine ⟨not_not.mp hdest, fun c' hc' => ?_⟩
      cases hc'
      exact ⟨rfl, rfl, hc⟩

theorem Chain.move (h : Chain S w) {shards : List String} {ds : List Departure}
    (ht : w.tick n = .enter s shards ds) : Chain S (w.move S s n shards ds) := by
  have hds : ∀ d ∈ ds, d.mark ≤ w.placed.length := fun _ hd => h.pending_of ht hd
  have hno : ∀ shards done, w.tick n ≠ .remove shards done := by simp [ht]
  unfold World.move
  split
  · exact h.setTick (h.no_remove hno) hds (List.forall_mem_nil _)
  · dsimp only
    have h₁ := (h.release s n ((w.agents s n).step dt S.grid)).proposeTick s n
    refine h₁.setTick (h₁.no_remove hno) (fun d hd => ?_) (List.forall_mem_nil _)
    rcases List.mem_append.mp hd with hd | hd
    · exact hds d hd
    · obtain ⟨a, -, rfl⟩ := List.mem_map.mp hd
      exact le_rfl

theorem Chain.send (h : Chain S w) {d : Departure} {ds done : List Departure}
    (ht : w.tick n = .handOff (d :: ds) done) : Chain S (w.send S n d ds done) := by
  have hno : ∀ shards done, w.tick n ≠ .remove shards done := by simp [ht]
  have hpending : ∀ x ∈ d :: ds, x.mark ≤ w.placed.length := fun _ hx => h.pending_of ht hx
  have haccepted : ∀ x ∈ done, Arrived w.toShards x := fun _ hx => h.accepted_of ht hx
  unfold World.send
  dsimp only
  split
  · exact h.setTick (h.no_remove hno) (fun x hx => hpending x (List.mem_cons_of_mem _ hx)) haccepted
  · have h₁ : Chain S (w.setTick n (.await ⟨w.nextCall, n, (w.node d.dest n).leaderHint.1,
        (w.node d.dest n).leaderHint.2, d⟩ ds done)) :=
      h.setTick (h.no_remove hno) hpending haccepted
    refine { h₁ with requests := fun c hc => ?_ }
    rcases List.mem_append.mp hc with hc | hc
    · exact h.requests c hc
    · obtain rfl := List.mem_singleton.mp hc
      exact hpending d (List.mem_cons_self ..)

theorem Chain.startRemove (h : Chain S w) {shards : List String} {done : List Departure}
    (ht : w.tick n = .remove (s :: shards) done) (hfree : w.lock s n = none) :
    Chain S (w.startRemove n s shards done) := by
  unfold World.startRemove
  dsimp only
  split
  · refine h.setReplica trivial fun ids t i hl => ?_
    cases hl
    exact ⟨shards, done, ht, rfl⟩
  · exact h.setTick (h.no_remove_of_free ht hfree) (List.forall_mem_nil _) fun _ hd =>
      h.accepted_of ht hd

/-- The reply to the hand-off that a tick waits for. -/
theorem Chain.reply (h : Chain S w) {c : Call} {reply : HandOffResponse}
    (hk : (c, reply) ∈ w.replies) {ds done : List Departure} (ht : w.tick n = .await c ds done) :
    Chain S (w.setTick n (.handOff ds
      (if reply.accepted = true then done ++ [c.departure] else done))) := by
  have hpending : ∀ d ∈ c.departure :: ds, d.mark ≤ w.placed.length := fun _ hd =>
    h.pending_of ht hd
  have haccepted : ∀ d ∈ done, Arrived w.toShards d := fun _ hd => h.accepted_of ht hd
  refine h.setTick (h.no_remove (by simp [ht]))
    (fun d hd => hpending d (List.mem_cons_of_mem _ hd)) fun d hd => ?_
  change d ∈ (if reply.accepted = true then done ++ [c.departure] else done) at hd
  split at hd
  · rename_i hacc
    rcases List.mem_append.mp hd with hd | hd
    · exact haccepted d hd
    · obtain rfl := List.mem_singleton.mp hd
      exact h.replies _ hk hacc
  · exact haccepted d hd

/-- A tick is over when its node holds no lock for it. -/
theorem Chain.idle (h : Chain S w) (hno : ∀ s ids t i, w.lock s n ≠ some (.remove ids t i)) :
    Chain S (w.setTick n .idle) :=
  h.setTick hno (List.forall_mem_nil _) (List.forall_mem_nil _)

/-- Every step keeps the chain, one case for each event. -/
theorem Chain.step (h : Chain S w) (hp : Past S g w.toShards) (hs : World.step S w e = some w') :
    Chain S w' := by
  cases e with
  | raft s ev =>
    obtain ⟨v, hv, rfl⟩ := Option.map_eq_some_iff.mp hs
    refine h.shards (World.raftStep_change hv).later (fun p hp => .inl ?_) fun s n => .inl ?_
    · rwa [← Shards.placed_raftStep hv]
    · rw [Shards.lock_raftStep hv]
  | spawn n a =>
    simp only [World.step] at hs
    split at hs <;> cases hs
    · rename_i hcond
      refine { h with waiting := fun t ht => ?_ }
      rcases List.mem_append.mp ht with ht | ht
      · exact h.waiting t ht
      · obtain rfl := List.mem_singleton.mp ht
        exact ⟨hcond.1, fun c hc => absurd hc (by simp)⟩
    · exact { h with }
  | handle k =>
    obtain ⟨c, hc, rfl⟩ := Option.map_eq_some_iff.mp hs
    have h₁ : Chain S { w with requests := w.requests.eraseIdx k } :=
      { h with requests := fun x hx => h.requests x (List.mem_of_mem_eraseIdx hx) }
    exact h₁.handOff (h.requests c (List.mem_of_getElem? hc))
  | loseRequest k =>
    cases hs
    exact { h with requests := fun x hx => h.requests x (List.mem_of_mem_eraseIdx hx) }
  | loseReply k =>
    cases hs
    exact { h with replies := fun x hx => h.replies x (List.mem_of_mem_eraseIdx hx) }
  | cancelWaiting k =>
    cases hs
    exact { h with waiting := fun x hx => h.waiting x (List.mem_of_mem_eraseIdx hx) }
  | acquire k =>
    simp only [World.step] at hs
    split at hs
    · cases hs
    rename_i t hk
    split at hs <;> cases hs
    exact h.acquire hk
  | poll s n => exact h.poll hp hs
  | expire s n => exact h.expire hs
  | cancelAdd s n =>
    simp only [World.step] at hs
    split at hs <;> cases hs <;> exact h.release s n _
  | tickStart n =>
    simp only [World.step] at hs
    split at hs <;> cases hs
    rename_i ht
    exact h.setTick (h.no_remove (by simp [ht])) (List.forall_mem_nil _) (List.forall_mem_nil _)
  | tickVisit n =>
    simp only [World.step] at hs
    split at hs
    · cases hs
      rename_i ds ht
      exact h.setTick (h.no_remove (by simp [ht])) (fun _ hd => h.pending_of ht hd)
        (List.forall_mem_nil _)
    · rename_i s shards ds ht
      split at hs <;> cases hs <;>
        exact h.setTick (h.no_remove (by simp [ht])) (fun _ hd => h.pending_of ht hd)
          (List.forall_mem_nil _)
    · cases hs
  | tickEnter n =>
    simp only [World.step] at hs
    split at hs
    · rename_i ht
      split at hs <;> cases hs
      exact h.move ht
    · cases hs
  | tickSend n =>
    simp only [World.step] at hs
    split at hs <;> cases hs
    · rename_i ht
      exact h.send ht
    · rename_i done ht
      exact h.setTick (h.no_remove (by simp [ht])) (List.forall_mem_nil _) fun _ hd =>
        h.accepted_of ht hd
  | tickReply k =>
    simp only [World.step] at hs
    split at hs
    · cases hs
    rename_i c reply hk
    split at hs
    swap
    · cases hs
    rename_i c' ds done ht
    split at hs <;> cases hs
    rename_i hcc
    subst hcc
    have h₁ := h.reply (List.mem_of_getElem? hk) ht
    exact { h₁ with replies := fun x hx => h.replies x (List.mem_of_mem_eraseIdx hx) }
  | tickTimeout n =>
    simp only [World.step] at hs
    split at hs <;> cases hs
    rename_i ht
    exact h.setTick (h.no_remove (by simp [ht]))
      (fun _ hd => h.pending_of ht (List.mem_cons_of_mem _ hd)) fun _ hd => h.accepted_of ht hd
  | tickRemove n =>
    simp only [World.step] at hs
    split at hs
    · cases hs
      rename_i done ht
      refine h.idle fun s ids t i hl => ?_
      obtain ⟨shards, done', ht', -⟩ := h.removing s n ids t i hl
      rw [ht] at ht'
      exact absurd ht' (by simp)
    · rename_i s shards done ht
      split at hs <;> cases hs
      rename_i hfree
      exact h.startRemove ht (Option.isNone_iff_eq_none.mp hfree)
    · cases hs
  | tickKill n =>
    simp only [World.step] at hs
    split at hs
    · rename_i s shards done ht
      split at hs <;> cases hs
      · have h₁ := h.release s n (w.agents s n)
        exact h₁.idle (h₁.no_remove_of_free ht Shards.lock_setReplica_self)
      · rename_i hnot
        refine h.idle fun s' ids t i hl => ?_
        obtain ⟨shards', done', ht', -⟩ := h.removing s' n ids t i hl
        rw [ht] at ht'
        obtain ⟨⟨rfl, -⟩, -⟩ : (s = s' ∧ shards = shards') ∧ done = done' := by simpa using ht'
        exact hnot _ _ _ hl
    · cases hs
      rename_i hnot
      refine h.idle fun s' ids t i hl => ?_
      obtain ⟨shards', done', ht', -⟩ := h.removing s' n ids t i hl
      exact hnot _ _ _ ht'

/-- In every reachable state the chain holds, over some histories of the clusters. -/
theorem Reachable.exists_chain (h : Reachable S w) :
    ∃ g : String → Ghost Snapshot, Past S g w.toShards ∧ Chain S w := by
  refine Run.invariant (P := fun w =>
    ∃ g : String → Ghost Snapshot, Past S g w.toShards ∧ Chain S w)
    ?_ h ⟨_, past_init S, chain_init S⟩
  rintro w w' ⟨e, he⟩ ⟨g, hp, hc⟩
  obtain ⟨g', -, -, hp'⟩ := hp.step he
  exact ⟨g', hp', hc.step hp he⟩

/-! ### Durability -/

/-- As long as the node leads the term in which `add_agent` proposed, it has that entry. -/
theorem Past.own_entry (hp : Past S g v) (hok : LockOk S v s (v.lock s n)) {a : AgentState}
    {caller : Option Call} {t i : ℕ} {before : Registry}
    (hlock : v.lock s n = some (.place a caller t i before))
    (hstate : (v.node s n).state = (t, true)) :
    ∃ f l, (v.node s n).log[i]? = some f ∧ f.command = some l ∧ a ∈ l := by
  rw [hlock] at hok
  obtain ⟨j, hj, -⟩ := hok
  obtain ⟨-, f, l, hf, -, hcmd, hmem⟩ := hp.placed _ (List.mem_of_getElem? hj)
  obtain ⟨ht, hr⟩ := World.state_leader.mp hstate
  have hled := ((hp.node_ok s n).leader hr).2.1
  rw [ht] at hled
  rw [hled] at hf
  exact ⟨f, l, hf, hcmd, hmem⟩

/-- The snapshot of an accepted agent is committed, and later leaders have it. -/
theorem Past.accepts_durable (hp : Past S g w.toShards) (hc : Chain S w) {a : AgentState} {i : ℕ}
    (h : w.Accepts s n a i) : ∃ f l, i ≤ (w.node s n).commitIndex ∧
      (w.node s n).log[i]? = some f ∧ f.command = some l ∧ a ∈ l ∧
        ∀ w' j u, Steps S w w' → (w'.node s j).state = (u, true) →
          (w.node s n).currentTerm < u → (w'.node s j).log[i]? = some f := by
  obtain ⟨caller, t, before, hlock, hstate, hi⟩ := h
  obtain ⟨f, l, hf, hcmd, hmem⟩ := hp.own_entry (hc.lock s n) hlock hstate
  have hcommit := hi.trans (hp.node_ok s n).lastApplied
  refine ⟨f, l, hcommit, hf, hcmd, hmem, fun w' j u hs hlead hu => ?_⟩
  obtain ⟨g', hx, hp'⟩ := hp.steps hs
  rw [← hf]
  exact (((hp.sim s).agree_of_leader (hx s) (hp'.sim s) hlead hu).getElem?_eq hcommit).symm

/-- What a tick is about to remove was handed off by it, accepted, and committed over there,
in an entry placed after the departure. -/
theorem Past.removes_durable (hp : Past S g w.toShards) (hc : Chain S w) {id : String}
    (h : w.Removes s n id) : ∃ shards done d, w.tick n = .remove (s :: shards) done ∧ d ∈ done ∧
      d.shard = s ∧ d.agent.id = id ∧ ∃ t k, ⟨d.dest, d.agent, t, k⟩ ∈ w.placed.drop d.mark ∧
        ∃ j f l, k ≤ (w.node d.dest j).commitIndex ∧ (w.node d.dest j).log[k]? = some f ∧
          f.term = t ∧ f.command = some l ∧ d.agent ∈ l := by
  obtain ⟨ids, t, i, hlock, hid, -⟩ := h
  obtain ⟨shards, done, htick, rfl⟩ := hc.removing s n ids t i hlock
  obtain ⟨d, hd, rfl⟩ := List.mem_map.mp hid
  obtain ⟨hdone, hshard⟩ := List.mem_filter.mp hd
  obtain ⟨j, p, hj, hm, hps, hpa, hland⟩ := hc.accepted n d (by rw [htick]; exact hdone)
  refine ⟨shards, done, d, htick, hdone, of_decide_eq_true hshard, rfl, p.term, p.index, ?_, ?_⟩
  · rw [← hps, ← hpa]
    refine List.mem_of_getElem? (i := j - d.mark) ?_
    rw [List.getElem?_drop, Nat.add_sub_cancel' hm, hj]
  · rw [← hps, ← hpa]
    exact hp.committed_of_landed (List.mem_of_getElem? hj) hland

/-- **Acceptance means durable, and removal follows acceptance.**  When `add_agent` is about
to return `True`, its snapshot is in this replica's log at a committed index, and from then
on every leader of a later term has the same entry there; and when a tick is about to pop
an id, it had a hand-off of that agent accepted, and a snapshot with the agent that was
placed in the destination since the departure is committed there. -/
theorem acceptance_is_durable (h : Reachable S w) :
    (∀ s n a i, w.Accepts s n a i → ∃ f l, i ≤ (w.node s n).commitIndex ∧
      (w.node s n).log[i]? = some f ∧ f.command = some l ∧ a ∈ l ∧
        ∀ w' j u, Steps S w w' → (w'.node s j).state = (u, true) →
          (w.node s n).currentTerm < u → (w'.node s j).log[i]? = some f) ∧
      ∀ s n id, w.Removes s n id → ∃ shards done d, w.tick n = .remove (s :: shards) done ∧
        d ∈ done ∧ d.shard = s ∧ d.agent.id = id ∧
          ∃ t k, ⟨d.dest, d.agent, t, k⟩ ∈ w.placed.drop d.mark ∧
            ∃ j f l, k ≤ (w.node d.dest j).commitIndex ∧ (w.node d.dest j).log[k]? = some f ∧
              f.term = t ∧ f.command = some l ∧ d.agent ∈ l := by
  obtain ⟨g, hp, hc⟩ := h.exists_chain
  exact ⟨fun _ _ _ _ => hp.accepts_durable hc, fun _ _ _ => hp.removes_durable hc⟩

/-! ### Two nodes and two shards -/

def duo : Setup := ⟨.ofIds ["n1", "n2"] (by decide) (by decide), ⟨20, 20, 2, 1⟩⟩

def raftEvents (s : String) (es : List (Raft.Event Snapshot)) : List Event := es.map (Event.raft s)

/-- Leader `l` of shard `s` replicates one more entry to `f`, and commits and applies it. -/
def duoCommit (s l f : String) : List Event :=
  raftEvents s [.replicate l f 1, .handleAppendEntries 0, .appendReply 0, .applier l]

def duoElect (s l f : String) : List Event :=
  raftEvents s [.start "n1", .start "n2", .electionTimeout l, .handleRequestVote 0, .voteReply 0] ++
    duoCommit s l f

/-- An agent that is in the shard `0-0` and moves to `0-1` with its first step. -/
def crosser : AgentState := ⟨"a", 9, 5, 16, 0⟩

/-- Node `n1` leads `0-0`, `n2` leads `0-1`, and the snapshot with the new agent is applied. -/
def duoSpawn : List Event :=
  duoElect "0-0" "n1" "n2" ++ duoElect "0-1" "n2" "n1" ++
    [.spawn "n1" crosser, .acquire 0, .poll "0-0" "n1"] ++ duoCommit "0-0" "n1" "n2"

/-- Node `n1` has handed the agent over, and is about to remove it. -/
def duoHandOff : List Event :=
  duoSpawn ++ [.poll "0-0" "n1", .tickStart "n1", .tickVisit "n1", .tickEnter "n1", .tickVisit "n1",
    .tickVisit "n1", .tickSend "n1", .handle 0, .acquire 0, .poll "0-1" "n2"] ++
    duoCommit "0-1" "n2" "n1" ++ [.poll "0-1" "n2"] ++ duoCommit "0-0" "n1" "n2" ++
    [.tickReply 0, .tickSend "n1", .tickRemove "n1"]

def duoAfter (es : List Event)
    (h : (Run.exec (World.step duo) (World.init duo) es).isSome = true) : World :=
  (Run.exec (World.step duo) (World.init duo) es).get h

theorem acceptance_is_durable_duo :
    (∃ f l, 2 ≤ ((duoAfter duoSpawn (by decide +kernel)).node "0-0" "n1").commitIndex ∧
      ((duoAfter duoSpawn (by decide +kernel)).node "0-0" "n1").log[2]? = some f ∧
        f.command = some l ∧ crosser ∈ l) ∧
      ∃ shards done d, (duoAfter duoHandOff (by decide +kernel)).tick "n1" =
        .remove ("0-0" :: shards) done ∧ d ∈ done ∧ d.agent.id = "a" := by
  obtain ⟨f, l, hk, hf, hc, hm, -⟩ := (acceptance_is_durable
    (w := duoAfter duoSpawn (by decide +kernel)) (Run.steps_get _)).1 "0-0" "n1" crosser 2
      ⟨none, 1, Registry.empty, by decide +kernel, by decide +kernel, by decide +kernel⟩
  obtain ⟨shards, done, d, ht, hd, -, hid, -⟩ := (acceptance_is_durable
    (w := duoAfter duoHandOff (by decide +kernel)) (Run.steps_get _)).2 "0-0" "n1" "a"
      ⟨["a"], 1, 3, by decide +kernel, by decide, by decide +kernel, by decide +kernel⟩
  exact ⟨⟨f, l, hk, hf, hc, hm⟩, shards, done, d, ht, hd, hid⟩

end Region
