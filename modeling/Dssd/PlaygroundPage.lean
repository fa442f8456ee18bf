/-
The page of the world playground (`playground.py`, `World._leader_of`, `World.snapshot`).

A shard is shown as its leader has it, and without a leader as the freshest replica of a
node that is up has it.  The agents that the page expects, `_expected`, are those whose
`spawn_agent` has returned `True`: `spawned` of the world.

* `leaderOf`, `view`, `snapshot` — what the page shows, with positions that are not rounded;
* `exists_ne_of_count` — what is counted twice over lists without duplicates is in two of
  them;
* `mem_view_iff` — without failures, a shard shows what its leader has;
* **`nobody_is_lost`** — then the page has every agent that has been spawned once, shows it
  in two shards only while a tick hands it over, and in one when all is quiet.
-/
import Dssd.RegionPhase
import Mathlib.Data.List.MinMax
import Mathlib.Data.Prod.Lex
import Mathlib.Data.String.Basic

namespace Playground

open Raft (Ghost)
open Region (Setup AgentState Registry allShardIds ReachableWhere FailureFree Homes Led Synced)

/-! ### The page -/

/-- `_leader_of(sid)`: of the nodes that are up and lead, one of the highest term, with its term. -/
def leaderOf (S : Setup) (w : Region.World) (down : Finset String) (s : String) :
    Option (String × ℕ) :=
  let best := (S.M.ids.filter fun n => n ∉ down ∧ (w.node s n).state.2 = true).map fun n =>
    ((w.node s n).state.1, n)
  (best.argmax toLex).map Prod.swap

/-- The agents that the shard is shown with. -/
def view (S : Setup) (w : Region.World) (down : Finset String) (s : String) : List AgentState :=
  match leaderOf S w down s with
  | some (leader, _) => (w.agents s leader).agents
  | none =>
    match (S.M.ids.filter fun n => n ∉ down).argmax fun n => (w.node s n).lastApplied with
    | some n => (w.agents s n).agents
    | none => []

/-- All agents that some replica has, those of crashed nodes too. -/
def seen (S : Setup) (w : Region.World) : List String :=
  (allShardIds S.grid).flatMap fun s =>
    S.M.ids.flatMap fun n => (w.agents s n).agents.map AgentState.id

/-- What the page is told, without packets and log lines. -/
structure Snapshot where
  nodes : List (String × Bool × List String)
  shards : List (String × Option String × ℕ)
  agents : List (AgentState × String)
  total : ℕ
  lost : ℕ
  duplicated : ℕ

/-- `snapshot()` -/
def snapshot (S : Setup) (w : Region.World) (down : Finset String) : Snapshot :=
  let held := (allShardIds S.grid).flatMap fun s => (view S w down s).map AgentState.id
  { nodes := S.M.ids.map fun n => (n, n ∉ down,
      (allShardIds S.grid).filter fun s => n ∉ down ∧ (w.node s n).state.2 = true)
    shards := (allShardIds S.grid).map fun s => (s, (leaderOf S w down s).map Prod.fst,
      ((leaderOf S w down s).map Prod.snd).getD 0)
    agents := (allShardIds S.grid).flatMap fun s => (view S w down s).map (·, s)
    total := w.spawned.toFinset.card
    lost := (w.spawned.toFinset \ (seen S w).toFinset).card
    duplicated := (held.toFinset.filter fun id => 1 < held.count id).card }

/-! ### Counting -/

theorem exists_ne_of_count {α β : Type*} [DecidableEq β] {l : List α} {f : α → List β} {b : β}
    (hl : l.Nodup) (hf : ∀ a ∈ l, (f a).Nodup) (hb : 1 < (l.flatMap f).count b) :
    ∃ a ∈ l, ∃ a' ∈ l, a ≠ a' ∧ b ∈ f a ∧ b ∈ f a' := by
  induction l with
  | nil => simp at hb
  | cons a l ih =>
    obtain ⟨ha, hl⟩ := List.nodup_cons.mp hl
    rw [List.flatMap_cons, List.count_append] at hb
    by_cases hba : b ∈ f a
    · have hone : (f a).count b = 1 := List.count_eq_one_of_mem (hf a List.mem_cons_self) hba
      have hrest : 0 < (l.flatMap f).count b := by omega
      obtain ⟨a', ha', hba'⟩ := List.mem_flatMap.mp (List.count_pos_iff.mp hrest)
      refine ⟨a, List.mem_cons_self, a', List.mem_cons_of_mem a ha', ?_, hba, hba'⟩
      rintro rfl
      exact ha ha'
    · rw [List.count_eq_zero.mpr hba, Nat.zero_add] at hb
      obtain ⟨x, hx, y, hy, hxy⟩ := ih hl (fun x hx => hf x (List.mem_cons_of_mem a hx)) hb
      exact ⟨x, List.mem_cons_of_mem a hx, y, List.mem_cons_of_mem a hy, hxy⟩

/-! ### Runs without failures -/

variable {S : Setup} {g : String → Ghost Region.Snapshot} {w : Region.World} {down : Finset String}
  {s s' n id : String} {t : ℕ}

theorem leaderOf_eq_some (h : leaderOf S w down s = some (n, t)) :
    n ∈ S.M.ids ∧ n ∉ down ∧ (w.node s n).role = .leader := by
  obtain ⟨x, hx, heq⟩ := Option.map_eq_some_iff.mp h
  obtain ⟨m, hm, rfl⟩ := List.mem_map.mp (List.argmax_mem hx)
  obtain ⟨rfl, -⟩ := Prod.mk.inj heq
  obtain ⟨hids, hm⟩ := List.mem_filter.mp hm
  obtain ⟨hup, hlead⟩ := of_decide_eq_true hm
  exact ⟨hids, hup, by simpa [Raft.Node.state] using hlead⟩

theorem leaderOf_eq_none (h : leaderOf S w down s = none) (hn : n ∈ S.M.ids) (hup : n ∉ down) :
    (w.node s n).role ≠ .leader := by
  intro hrole
  have hnil := List.argmax_eq_none.mp (Option.map_eq_none_iff.mp h)
  have hmem : n ∈ S.M.ids.filter fun n => n ∉ down ∧ (w.node s n).state.2 = true :=
    List.mem_filter.mpr ⟨hn, decide_eq_true ⟨hup, by simp [Raft.Node.state, hrole]⟩⟩
  rw [List.map_eq_nil_iff.mp hnil] at hmem
  cases hmem

/-- Whoever is shown to lead a shard does. -/
theorem leads_of_mem (h : s ∈ (allShardIds S.grid).filter fun s =>
    n ∉ down ∧ (w.node s n).state.2 = true) : w.Leads S s n := by
  obtain ⟨hs, hn⟩ := List.mem_filter.mp h
  exact ⟨hs, by simpa [Raft.Node.state] using (of_decide_eq_true hn).2⟩

theorem home_ne_none {p : Region.Placement} (h : p ∈ w.placed) : w.home p.agent.id ≠ none := by
  intro hnone
  have hnil := List.getLast?_eq_none_iff.mp (Option.map_eq_none_iff.mp hnone)
  exact List.filter_eq_nil_iff.mp hnil p h (decide_eq_true rfl)

theorem nodup_view (S : Setup) (w : Region.World) (down : Finset String) (s : String) :
    ((view S w down s).map AgentState.id).Nodup := by
  unfold view
  split
  · exact (w.agents s _).nodup
  · split
    · exact (w.agents s _).nodup
    · exact List.nodup_nil

/-- A shard shows what its leader has. -/
theorem mem_view_iff (h : Homes S g w) (hs : s ∈ allShardIds S.grid) :
    id ∈ (view S w ∅ s).map AgentState.id ↔ ∃ n, w.Leads S s n ∧ (w.agents s n).Has id := by
  unfold view
  split
  · rename_i leader t hleader
    obtain ⟨-, -, hrole⟩ := leaderOf_eq_some hleader
    refine ⟨fun hid => ⟨leader, ⟨hs, hrole⟩, hid⟩, ?_⟩
    rintro ⟨n, hl, hhas⟩
    rwa [h.led.one s n leader hl ⟨hs, hrole⟩] at hhas
  · rename_i hnone
    have hno : ∀ n, (w.node s n).role ≠ .leader := by
      intro n hrole
      exact leaderOf_eq_none hnone (h.past.mem_of_leader hrole) (Finset.notMem_empty n) hrole
    have hblank := h.synced.blank s hs hno
    constructor
    · intro hid
      split at hid
      · rw [hblank.agents] at hid
        cases hid
      · cases hid
    · rintro ⟨n, hl, -⟩
      exact absurd hl.2 (hno n)

/-- Of two shards that show an agent, one is about to remove it. -/
theorem leaving_of_two (h : Homes S g w) (honce : w.spawns.count id ≤ 1)
    (hs : s ∈ allShardIds S.grid) (hs' : s' ∈ allShardIds S.grid) (hne : s ≠ s')
    (hv : id ∈ (view S w ∅ s).map AgentState.id) (hv' : id ∈ (view S w ∅ s').map AgentState.id) :
    ∃ n, (w.Leads S s n ∧ w.Leaving s n id) ∨ (w.Leads S s' n ∧ w.Leaving s' n id) := by
  obtain ⟨n, hl, hhas⟩ := (mem_view_iff h hs).mp hv
  obtain ⟨n', hl', hhas'⟩ := (mem_view_iff h hs').mp hv'
  rcases (h.home id honce).only s n hl hhas with hhome | hleaving
  · rcases (h.home id honce).only s' n' hl' hhas' with hhome' | hleaving
    · exact absurd (Option.some.inj (hhome.symm.trans hhome')) hne
    · exact ⟨n', .inr ⟨hl', hleaving⟩⟩
  · exact ⟨n, .inl ⟨hl, hleaving⟩⟩

/-- **Nobody is lost.**  In a run without failures in which ticks pop only what is their own, and
which has spawned no agent twice, the page shows every agent that has been placed and loses none,
and no shard with two leaders.  Where it shows an agent in two shards, the leader of one of them has
handed it over and is still to remove it; when all is quiet, no agent is shown twice. -/
theorem nobody_is_lost (h : ReachableWhere S (fun w e => FailureFree S w e ∧ w.Pops e) w)
    (honce : ∀ id, w.spawns.count id ≤ 1) :
    (∀ id ∈ w.spawns, ∃ x ∈ (snapshot S w ∅).agents, x.1.id = id) ∧ (snapshot S w ∅).lost = 0 ∧
      (∀ x ∈ (snapshot S w ∅).nodes, ∀ y ∈ (snapshot S w ∅).nodes, ∀ s ∈ x.2.2, s ∈ y.2.2 → x = y) ∧
      (∀ x ∈ (snapshot S w ∅).agents, ∀ y ∈ (snapshot S w ∅).agents, x.1.id = y.1.id → x.2 ≠ y.2 →
        ∃ n, (w.Leads S x.2 n ∧ w.Leaving x.2 n x.1.id) ∨
          (w.Leads S y.2 n ∧ w.Leaving y.2 n y.1.id)) ∧
      (w.Quiet S → (snapshot S w ∅).duplicated = 0) := by
  obtain ⟨g, hg⟩ := Region.exists_homes h
  have hkept : ∀ id ∈ w.spawns, ∃ s n, w.Leads S s n ∧ (w.agents s n).Has id := by
    intro id hid
    obtain ⟨s, hs⟩ := Option.ne_none_iff_exists'.mp ((hg.spawns id).mp hid)
    obtain ⟨n, hn⟩ := (hg.home id (honce id)).kept s hs
    exact ⟨s, n, hn⟩
  have hagents : ∀ x ∈ (snapshot S w ∅).agents, x.2 ∈ allShardIds S.grid ∧
      x.1.id ∈ (view S w ∅ x.2).map AgentState.id := by
    intro x hx
    obtain ⟨s, hs, hx⟩ := List.mem_flatMap.mp hx
    obtain ⟨a, ha, rfl⟩ := List.mem_map.mp hx
    exact ⟨hs, List.mem_map_of_mem ha⟩
  refine ⟨fun id hid => ?_, ?_, fun x hx y hy s hs hs' => ?_, fun x hx y hy hxy hne => ?_,
    fun hquiet => ?_⟩
  · obtain ⟨s, n, hl, hhas⟩ := hkept id hid
    obtain ⟨a, ha, rfl⟩ := List.mem_map.mp ((mem_view_iff hg hl.1).mpr ⟨n, hl, hhas⟩)
    exact ⟨(a, s), List.mem_flatMap.mpr ⟨s, hl.1, List.mem_map_of_mem ha⟩, rfl⟩
  · show (w.spawned.toFinset \ (seen S w).toFinset).card = 0
    refine Finset.card_eq_zero.mpr (Finset.sdiff_eq_empty_iff_subset.mpr fun id hid => ?_)
    obtain ⟨p, hp, rfl, -⟩ := hg.chain.spawned id (List.mem_toFinset.mp hid)
    obtain ⟨s, n, hl, hhas⟩ := hkept p.agent.id ((hg.spawns _).mpr (home_ne_none hp))
    exact List.mem_toFinset.mpr (List.mem_flatMap.mpr ⟨s, hl.1,
      List.mem_flatMap.mpr ⟨n, hg.past.mem_of_leader hl.2, hhas⟩⟩)
  · obtain ⟨n, -, rfl⟩ := List.mem_map.mp hx
    obtain ⟨n', -, rfl⟩ := List.mem_map.mp hy
    rw [hg.led.one s n n' (leads_of_mem hs) (leads_of_mem hs')]
  · obtain ⟨hs, hid⟩ := hagents x hx
    obtain ⟨hs', hid'⟩ := hagents y hy
    rw [← hxy] at hid' ⊢
    exact leaving_of_two hg (honce x.1.id) hs hs' hne hid hid'
  · show (Finset.filter _ (List.toFinset _)).card = 0
    refine Finset.card_eq_zero.mpr (Finset.filter_eq_empty_iff.mpr fun id _ htwo => ?_)
    obtain ⟨s, hs, s', hs', hne, hv, hv'⟩ := exists_ne_of_count (Region.nodup_allShardIds S.grid)
      (fun s _ => nodup_view S w ∅ s) htwo
    obtain ⟨n, ⟨hl, hleaving⟩ | ⟨hl, hleaving⟩⟩ := leaving_of_two hg (honce id) hs hs' hne hv hv'
    · exact hquiet.not_leaving hg.past hl hleaving
    · exact hquiet.not_leaving hg.past hl hleaving

/-- Node `n1` has handed its agent over, and has removed it. -/
def duoRemoved : Region.World :=
  Region.duoWhere (fun w e => FailureFree Region.duo w e ∧ w.Pops e) Region.duoRemoval
    (by decide +kernel)

theorem nobody_is_lost_duo : duoRemoved.spawned = ["a"] ∧ duoRemoved.Quiet Region.duo ∧
    (snapshot Region.duo duoRemoved ∅).lost = 0 ∧
    (snapshot Region.duo duoRemoved ∅).duplicated = 0 := by
  have hspawns : duoRemoved.spawns = ["a"] := by decide +kernel
  have hquiet : duoRemoved.Quiet Region.duo := by decide +kernel
  have hboard := nobody_is_lost (w := duoRemoved) (Region.duoWhere_reachable _) fun id => by
    rw [hspawns]
    exact List.nodup_iff_count_le_one.mp (by decide) id
  exact ⟨by decide +kernel, hquiet, hboard.2.1, hboard.2.2.2.2 hquiet⟩

-- before the removal, the page shows the agent in both shards
example : (snapshot Region.duo (Region.duoWhere (fun w e => FailureFree Region.duo w e ∧ w.Pops e)
    Region.duoHandOff (by decide +kernel)) ∅).duplicated = 1 := by
  decide +kernel

end Playground
