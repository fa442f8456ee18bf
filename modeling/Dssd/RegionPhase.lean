/-
A tick moves no agent twice (`RegionServer.tick`).

* `World.Finds` — phase 1 of a tick of this node comes upon the agent in this shard;
* `World.tick_of_idle` — a tick that is over starts again only by `tickStart`;
* `Stays` — the invariant: as long as phase 1 has shards to visit, the agent stays at the
  home where it was found, which is none of them; `Stays.step`;
* **`found_once_a_tick`** — in a run without failures, between two starts of its tick a node
  finds each agent once at most, wherever it is handed meanwhile.
-/
import Dssd.RegionOnce

open Function (update)
open Relation (ReflTransGen)

namespace Region

open Raft (Cluster Ghost Node)

variable {S : Setup} {g g' : String → Ghost Snapshot} {w w' x : World} {e : Event}
  {s s' n id : String}

/-- Phase 1 of the tick of node `n` has the lock of shard `s` next, and the agent is there. -/
def World.Finds (w : World) (n s id : String) : Prop :=
  (∃ shards ds, w.tick n = .enter s shards ds) ∧ (w.agents s n).Has id

/-! ### Ticks that are over -/

namespace World

theorem tick_place (w : World) (a : AgentState) (caller : Option Call) :
    (w.place s n a caller).tick = w.tick := by
  unfold World.place
  split
  · rfl
  · exact (frame_finish _ _ _ _).1

theorem tick_handOff (w : World) (c : Call) : (w.handOff S c).tick = w.tick := by
  unfold World.handOff
  dsimp only
  split
  · rfl
  · split
    · rfl
    · split <;> rfl

theorem tick_acquire (w : World) (k : ℕ) (t : AddCall) : (w.acquire k t).tick = w.tick := by
  unfold World.acquire
  dsimp only
  split
  · rfl
  · exact (frame_finish _ _ _ _).1

theorem tick_next (h : w.tick n = .idle) (m : String) : (w.next m).tick n = .idle := by
  unfold World.next
  split
  · rename_i htick
    refine (Function.update_of_ne ?_ _ _).trans h
    rintro rfl
    cases h.symm.trans htick
  · exact h

theorem tick_setTick (h : w.tick n = .idle) {m : String} {t t' : Tick} (ht : w.tick m = t')
    (hne : t' ≠ .idle) : (w.setTick m t).tick n = .idle := by
  refine (Function.update_of_ne ?_ _ _).trans h
  rintro rfl
  exact hne (ht.symm.trans h)

/-- A sleeping coroutine that wakes up starts no tick. -/
theorem tick_poll (h : w.tick n = .idle) {m : String} (hs : w.poll s m = some w') :
    w'.tick n = .idle := by
  unfold World.poll at hs
  dsimp only at hs
  split at hs
  · cases hs
  · split at hs
    · obtain rfl := Option.some.inj hs
      rw [(frame_finish _ _ _ _).1]
      exact h
    · obtain ⟨-, hs⟩ := Option.ite_none_right_eq_some.mp hs
      obtain rfl := Option.some.inj hs
      rw [tick_place]
      exact h
  · split at hs
    · obtain rfl := Option.some.inj hs
      rw [(frame_finish _ _ _ _).1]
      exact h
    · obtain ⟨-, hs⟩ := Option.ite_none_right_eq_some.mp hs
      obtain rfl := Option.some.inj hs
      rw [(frame_finish _ _ _ _).1]
      exact h
  · split at hs
    · obtain rfl := Option.some.inj hs
      exact tick_next (w := w.setReplica s m _) h m
    · obtain ⟨-, hs⟩ := Option.ite_none_right_eq_some.mp hs
      obtain rfl := Option.some.inj hs
      exact tick_next (w := (w.setReplica s m _).proposeTick s m) h m

/-- **A tick that is over starts again only by itself**, one case for each event of a run without
failures. -/
theorem tick_of_idle (h : w.tick n = .idle) (hsmooth : e.Smooth) (hne : e ≠ .tickStart n)
    (hs : World.step S w e = some w') : w'.tick n = .idle := by
  cases e with
  | raft s ev =>
    obtain ⟨v, -, rfl⟩ := Option.map_eq_some_iff.mp hs
    exact h
  | spawn m a =>
    simp only [World.step] at hs
    split at hs <;> obtain rfl := Option.some.inj hs <;> exact h
  | handle k =>
    obtain ⟨c, -, rfl⟩ := Option.map_eq_some_iff.mp hs
    rw [tick_handOff]
    exact h
  | acquire k =>
    simp only [World.step] at hs
    split at hs
    · cases hs
    · obtain ⟨-, hs⟩ := Option.ite_none_right_eq_some.mp hs
      obtain rfl := Option.some.inj hs
      rw [tick_acquire]
      exact h
  | poll s m => exact tick_poll h hs
  | tickStart m =>
    simp only [World.step] at hs
    split at hs <;> cases hs
    refine (Function.update_of_ne ?_ _ _).trans h
    rintro rfl
    exact hne rfl
  | tickVisit m =>
    simp only [World.step] at hs
    split at hs
    · rename_i ht
      obtain rfl := Option.some.inj hs
      exact tick_setTick h ht (by simp)
    · rename_i ht
      split at hs <;> obtain rfl := Option.some.inj hs <;> exact tick_setTick h ht (by simp)
    · cases hs
  | tickEnter m =>
    simp only [World.step] at hs
    split at hs
    swap
    · cases hs
    rename_i s shards ds ht
    obtain ⟨-, hs⟩ := Option.ite_none_right_eq_some.mp hs
    obtain rfl := Option.some.inj hs
    unfold World.move
    split
    · exact tick_setTick h ht (by simp)
    · exact tick_setTick (w := (w.setReplica s m ⟨_, none⟩).proposeTick s m) h ht (by simp)
  | tickSend m =>
    simp only [World.step] at hs
    split at hs <;> cases hs
    · rename_i ht
      unfold World.send
      dsimp only
      split
      · exact tick_setTick h ht (by simp)
      · exact tick_setTick h ht (by simp)
    · rename_i ht
      exact tick_setTick h ht (by simp)
  | tickReply k =>
    simp only [World.step] at hs
    split at hs
    · cases hs
    split at hs
    swap
    · cases hs
    rename_i ht
    obtain ⟨-, hs⟩ := Option.ite_none_right_eq_some.mp hs
    obtain rfl := Option.some.inj hs
    exact tick_setTick (w := { w with replies := w.replies.eraseIdx k }) h ht (by simp)
  | tickRemove m =>
    simp only [World.step] at hs
    split at hs
    · rename_i ht
      obtain rfl := Option.some.inj hs
      exact tick_setTick h ht (by simp)
    · rename_i ht
      obtain ⟨-, hs⟩ := Option.ite_none_right_eq_some.mp hs
      obtain rfl := Option.some.inj hs
      unfold World.startRemove
      dsimp only
      split
      · exact h
      · exact tick_setTick h ht (by simp)
    · cases hs
  | loseRequest | loseReply | expire | cancelAdd | cancelWaiting | tickTimeout | tickKill =>
    cases hsmooth

end World

/-! ### Phase 1 -/

/-- Phase 1 visits the shards one after the other, and visits none again. -/
theorem Tick.Goes.rest {leads : String → Prop} {has : String → String → Prop} {t t' : Tick}
    (h : Tick.Goes S leads has t t') (ht : t ≠ .idle) : t'.rest ⊆ t.rest := by
  cases h with
  | advance ha =>
    cases ha with
    | start => exact absurd rfl ht
    | skip | leave => exact List.subset_cons_self _ _
    | enter | visited | drop | handed | stop => exact List.Subset.refl _
  | moved => exact List.subset_cons_self _ _
  | sent | replied | popped => exact List.Subset.refl _

/-- Nobody is handed over, or waited for, in phase 1. -/
theorem World.not_leaving (h : (w.tick n).rest ≠ []) : ¬ w.Leaving s n id := by
  rintro (⟨d, hd, -⟩ | ⟨c, ⟨ds, done, ht⟩, rfl, -⟩)
  · cases ht : w.tick n with
    | visit | enter =>
      rw [ht] at hd
      exact absurd hd (by simp [Tick.handed])
    | idle | handOff | await | remove =>
      rw [ht] at h
      exact h rfl
  · rw [ht] at h
    exact h rfl

/-- An agent that phase 1 finds is at home there. -/
theorem Home.of_finds (h : Home S w id) (hled : Led S w) (hf : w.Finds n s id) :
    w.Leads S s n ∧ w.home id = some s := by
  obtain ⟨⟨shards, ds, ht⟩, hhas⟩ := hf
  have hl : w.Leads S s n := (hled.tick n).locks s (by rw [ht]; exact List.mem_singleton_self s)
  refine ⟨hl, (h.only s n hl hhas).resolve_right (World.not_leaving ?_)⟩
  rw [ht]
  exact List.cons_ne_nil _ _

/-- As long as phase 1 has shards to visit, the agent is at home in another one, which the node
leads. -/
structure Stays (S : Setup) (n s id : String) (w : World) : Prop where
  leads : w.Leads S s n
  home : (w.tick n).rest ≠ [] → w.home id = some s
  visited : s ∉ (w.tick n).rest

/-- **Nobody else places an agent** that phase 1 has found. -/
theorem Stays.step (h : Stays S n s id w) (hg : Homes S g w) (hff : FailureFree S w e)
    (hne : e ≠ .tickStart n) (hs : World.step S w e = some w') (hcount : w'.spawns.count id ≤ 1) :
    Stays S n s id w' := by
  have hturn := hg.led.turn hg.chain hff.1 hs
  have hrest : (w'.tick n).rest ⊆ (w.tick n).rest := by
    by_cases hidle : w.tick n = .idle
    · rw [World.tick_of_idle hidle hff.1 hne hs, hidle]
      exact List.Subset.refl _
    · rcases hturn.goes n with heq | hgo
      · rw [heq]
        exact List.Subset.refl _
      · exact hgo.rest hidle
  refine ⟨(hff.2 w' hs).leads hg.past.toBase h.leads, fun hmore => ?_, fun hmem =>
    h.visited (hrest hmem)⟩
  have hbefore : (w.tick n).rest ≠ [] := fun hnil => hmore (List.subset_nil.mp (hnil ▸ hrest))
  have hhome := h.home hbefore
  rcases hturn.place_or hg.synced hg.past with hno | ⟨s₁, n₁, a, caller, t, i, hlock, rfl⟩
  · unfold Shards.home at hhome ⊢
    rw [hno.placed]
    exact hhome
  show (w.toShards.place s₁ n₁ a caller).home id = some s
  rw [home_place]
  split
  swap
  · exact hhome
  rename_i hid
  subst hid
  exfalso
  cases caller with
  | none =>
    -- it would be spawned twice
    have hmem : a.id ∈ w.spawns := (hg.spawns a.id).mpr (by rw [hhome]; simp)
    have := List.count_pos_iff.mpr hmem
    change (w.spawns ++ [a.id]).count a.id ≤ 1 at hcount
    rw [List.count_append, List.count_singleton_self] at hcount
    omega
  | some c =>
    -- it would be handed over by the tick of its home, which is still in phase 1
    change (w.spawns ++ []).count a.id ≤ 1 at hcount
    rw [List.append_nil] at hcount
    have hok := hg.chain.lock s₁ n₁
    rw [hlock] at hok
    have hagent := congrArg AgentState.id (hok.2 c rfl).2.1
    have hσ : w.At c (.adding s₁ n₁) := ⟨a, t, i, hlock⟩
    have hawaits := hg.tokens.awaited c _ hσ
    have hfresh : ¬ w.Placed c := by
      rintro ⟨σ, hc, hp⟩
      rw [hg.tokens.unique c σ _ hc hσ] at hp
      cases hp
    have hsent := (hg.home a.id hcount).sent c hawaits hagent hfresh
    rw [hhome] at hsent
    have hlead : w.Leads S c.departure.shard c.caller :=
      (hg.led.tick c.caller).departures _ (List.mem_append_left _ hawaits.departure)
    obtain rfl := hg.led.one s c.caller n (Option.some.inj hsent ▸ hlead) h.leads
    obtain ⟨ds, done, hawait⟩ := hawaits
    rw [hawait] at hbefore
    exact hbefore rfl

/-- An agent that is found stays until the end of phase 1. -/
theorem Home.stays (h : Home S w id) (hled : Led S w) (hf : w.Finds n s id)
    (hleads : ∀ {s n}, w.Leads S s n → w'.Leads S s n)
    (hs : World.step S w (.tickEnter n) = some w') : Stays S n s id w' := by
  obtain ⟨hlead, hhome⟩ := h.of_finds hled hf
  obtain ⟨⟨shards, ds, ht⟩, -⟩ := hf
  have hnodup : (s :: shards).Nodup := by
    have := (hled.tick n).nodup
    rwa [ht] at this
  simp only [World.step, ht] at hs
  obtain ⟨-, hs⟩ := Option.ite_none_right_eq_some.mp hs
  obtain rfl := Option.some.inj hs
  obtain ⟨ds', hvisit⟩ : ∃ ds', (w.move S s n shards ds).tick n = .visit shards ds' := by
    unfold World.move
    split
    · exact ⟨_, Function.update_self _ _ _⟩
    · exact ⟨_, Function.update_self _ _ _⟩
  refine ⟨hleads hlead, fun _ => ?_, ?_⟩
  · unfold World.move
    split
    · exact hhome
    · exact hhome
  · rw [hvisit]
    exact (List.nodup_cons.mp hnodup).1

/-! ### Runs -/

/-- Whoever has been spawned stays so. -/
theorem spawns_step (hg : Homes S g w) (hff : FailureFree S w e)
    (hs : World.step S w e = some w') : w.spawns <+: w'.spawns := by
  have hturn := hg.led.turn hg.chain hff.1 hs
  rcases hturn.place_or hg.synced hg.past with hno | ⟨s, n, a, caller, t, i, -, rfl⟩
  · rw [hno.spawns]
  · exact List.prefix_append _ _

/-- **A tick moves no agent twice.**  Take a run without failures in which ticks pop only what is
their own, and an agent that has been spawned once.  When a tick has found the agent in a shard, in
phase 1, it finds it in no shard again, wherever it is handed, until the node starts its next
tick. -/
theorem found_once_a_tick (h : ReachableWhere S (fun w e => FailureFree S w e ∧ w.Pops e) w)
    (hfound : w.Finds n s id) (hff : FailureFree S w (.tickEnter n))
    (hs : World.step S w (.tickEnter n) = some w')
    (hrun : ReflTransGen (Run.StepWhere (World.step S) fun w e =>
      (FailureFree S w e ∧ w.Pops e) ∧ e ≠ .tickStart n) w' x)
    (hcount : x.spawns.count id ≤ 1) : ¬ x.Finds n s' id := by
  obtain ⟨g, hg⟩ := exists_homes h
  obtain ⟨g', hg'⟩ := hg.step hff trivial hs
  have hkeep : (∃ g : String → Ghost Snapshot, Homes S g x) ∧
      (x.spawns.count id ≤ 1 → Stays S n s id x) := by
    refine Run.invariant (P := fun x => (∃ g : String → Ghost Snapshot, Homes S g x) ∧
      (x.spawns.count id ≤ 1 → Stays S n s id x)) ?_ hrun ⟨⟨g', hg'⟩, fun hcount' => ?_⟩
    · rintro y y' ⟨e, ⟨⟨hff', hok⟩, hne⟩, hstep⟩ ⟨⟨g, hy⟩, hstays⟩
      refine ⟨hy.step hff' hok hstep, fun hcount' => ?_⟩
      have hle := (spawns_step hy hff' hstep).sublist.count_le id
      exact (hstays (hle.trans hcount')).step hy hff' hne hstep hcount'
    · have hle := (spawns_step hg hff hs).sublist.count_le id
      exact (hg.home id (hle.trans hcount')).stays hg.led hfound
        (fun hl => (hff.2 w' hs).leads hg.past.toBase hl) hs
  obtain ⟨⟨g₁, hx⟩, hstays⟩ := hkeep
  intro hagain
  have hstays := hstays hcount
  obtain ⟨-, hhome⟩ := (hx.home id hcount).of_finds hx.led hagain
  obtain ⟨⟨shards, ds, ht⟩, -⟩ := hagain
  have hmem : s' ∈ (x.tick n).rest := by
    rw [ht]
    exact List.mem_cons_self
  obtain rfl := Option.some.inj ((hstays.home (List.ne_nil_of_mem hmem)).symm.trans hhome)
  exact hstays.visited hmem

/-- Node `n1` leads both shards, and its tick is about to find the agent in the first. -/
def duoBoth : List Event :=
  duoElect "0-0" "n1" "n2" ++ duoElect "0-1" "n1" "n2" ++
    [.spawn "n1" crosser, .acquire 0, .poll "0-0" "n1"] ++ duoCommit "0-0" "n1" "n2" ++
    [.poll "0-0" "n1", .tickStart "n1", .tickVisit "n1"]

theorem duoBoth_runs : (Run.execWhere (World.step duo)
    (fun w e => FailureFree duo w e ∧ w.Pops e) (World.init duo) duoBoth).isSome = true := by
  decide +kernel

def duoFinds : World := duoWhere (fun w e => FailureFree duo w e ∧ w.Pops e) duoBoth duoBoth_runs

theorem duoFinds_visits : (Run.exec (World.step duo) duoFinds
    [.tickEnter "n1", .tickVisit "n1"]).isSome = true := by
  decide +kernel

theorem found_once_a_tick_duo : duoFinds.Finds "n1" "0-0" "a" ∧ ∃ x,
    Run.exec (World.step duo) duoFinds [.tickEnter "n1", .tickVisit "n1"] = some x ∧
      (x.tick "n1").rest = ["0-1"] ∧ ¬ x.Finds "n1" "0-1" "a" := by
  have hreach : ReachableWhere duo (fun w e => FailureFree duo w e ∧ w.Pops e) duoFinds :=
    duoWhere_reachable _
  have hfinds : duoFinds.Finds "n1" "0-0" "a" := by
    refine ⟨⟨["0-1"], [], ?_⟩, ?_⟩
    · decide +kernel
    · decide +kernel
  have hff : FailureFree duo duoFinds (.tickEnter "n1") := by decide +kernel
  have hrest : (Run.exec (World.step duo) duoFinds [.tickEnter "n1", .tickVisit "n1"]).map
      (fun x => ((x.tick "n1").rest, x.spawns.count "a")) = some (["0-1"], 1) := by
    decide +kernel
  have hff' : (World.step duo duoFinds (.tickEnter "n1")).all
      (fun w => FailureFree duo w (.tickVisit "n1")) = true := by
    decide +kernel
  obtain ⟨x, hx⟩ := Option.isSome_iff_exists.mp duoFinds_visits
  rw [hx] at hrest
  obtain ⟨hrest, hcount⟩ := Prod.mk.inj (Option.some.inj hrest)
  refine ⟨hfinds, x, hx, hrest, ?_⟩
  obtain ⟨w, hw, hx⟩ := Option.bind_eq_some_iff.mp hx
  obtain ⟨y, hy, hx⟩ := Option.bind_eq_some_iff.mp hx
  obtain rfl := Option.some.inj hx
  rw [hw] at hff'
  exact found_once_a_tick hreach hfinds hff hw
    (.single ⟨_, ⟨⟨of_decide_eq_true hff', trivial⟩, by simp⟩, hy⟩) hcount.le

end Region
