/-
Crashing and reviving a node of the playground (`playground.py`).

A `Host` is what `_kill` and `_revive` of a cluster see of one node: whether its id is
in `net.down`, the `_tasks` of its components in the order in which they are stopped,
and the `_kill` coroutines in progress.  `stop()` of a component cancels its tasks and
waits until they are done, which they are one by one, later; with no tasks it does not
wait.  `start()` does not wait at all, so a `_revive` is one step.  Loops end only by
being cancelled; other tasks come and go.

* `Plan` — the loops of the components: `consensus`, a SWIM node and a Raft node, and
  `world`, a Raft node for each shard (whose `region_tasks` are only cancelled, not
  awaited, and are left out);
* `Host.step` — kills, revivals, the tasks that end and the kills that go on;
* `Host.Whole` — with no kill in progress, no loop of a node that is down is left, and
  every loop of a node that is up is running;
* **`Host.down_or_up`** — a run stays so, however what is in progress comes to its end,
  exactly if every revival finds no kill that still has a component to stop;
* `Host.half_revived` — a revival that a kill overtakes.
-/
import Mathlib.Algebra.Ring.Nat
import Mathlib.Logic.Function.Basic
import Mathlib.Tactic.Push
import Dssd.Runs

open Function (update)

namespace Playground

/-- The loops that `start()` spawns, of a SWIM node and of a Raft node. -/
inductive Duty
  | probe
  | resurrect
  | run
  | applier
  deriving DecidableEq

inductive Life
  | running
  | cancelling
  | done
  deriving DecidableEq

/-- A task in `_tasks`: a loop, or another one. -/
structure Task where
  id : ℕ
  duty : Option Duty
  life : Life
  deriving DecidableEq

/-- The loops of each component, in the order in which the components are stopped. -/
structure Plan where
  duties : List (List Duty)
  nonempty : ∀ ds ∈ duties, ds ≠ []

/-- A node of `Consensus`: `self.swim[nid]` and `self.raft[nid]`. -/
def consensus : Plan := ⟨[[.probe, .resurrect], [.run, .applier]], by decide⟩

/-- A node of `World`: the Raft node of each shard. -/
def world (shards : List String) : Plan where
  duties := shards.map fun _ => [.run, .applier]
  nonempty := by simp

/-- A `_kill` in the `stop()` of a component, which waits for these tasks. -/
structure Kill where
  component : ℕ
  awaits : List ℕ
  deriving DecidableEq

structure Host where
  down : Bool
  tasks : ℕ → List Task
  kills : List Kill
  nextTask : ℕ

inductive Event
  | kill
  | revive
  /-- The kill in place `i` goes on, since the tasks it waits for are done. -/
  | resume (i : ℕ)
  /-- The task in place `j` of a component ends. -/
  | finish (c j : ℕ)
  /-- A task that is done leaves the component. -/
  | discard (c j : ℕ)
  /-- A component spawns a task that is not a loop. -/
  | spawn (c : ℕ)

namespace Host

/-- `task.cancel()` -/
def cancel (t : Task) : Task := if t.life = .running then { t with life := .cancelling } else t

/-- The rest of `_kill`, with `n` components to stop from `c` on. -/
def killFrom (h : Host) : ℕ → ℕ → Host
  | 0, _ => h
  | n + 1, c =>
    if h.tasks c = [] then h.killFrom n (c + 1)
    else
      { h with
        tasks := update h.tasks c ((h.tasks c).map cancel)
        kills := h.kills ++ [⟨c, (h.tasks c).map Task.id⟩] }

/-- `_spawn` -/
def spawn (h : Host) (c : ℕ) (duty : Option Duty) : Host :=
  { h with
    tasks := update h.tasks c (h.tasks c ++ [⟨h.nextTask, duty, .running⟩])
    nextTask := h.nextTask + 1 }

/-- `start()` of the component `c` -/
def start (h : Host) (c : ℕ) (duties : List Duty) : Host :=
  duties.foldl (fun h d => h.spawn c (some d)) h

/-- `start()` of all components from `c` on -/
def startFrom (h : Host) : List (List Duty) → ℕ → Host
  | [], _ => h
  | ds :: rest, c => (h.start c ds).startFrom rest (c + 1)

/-- A node after the boot of its cluster. -/
def boot (p : Plan) : Host := startFrom ⟨false, fun _ => [], [], 0⟩ p.duties 0

/-- `_kill(nid)` up to its first wait. -/
def kill (p : Plan) (h : Host) : Host :=
  if h.down then h else { h with down := true }.killFrom p.duties.length 0

/-- `_revive(nid)` -/
def revive (p : Plan) (h : Host) : Host :=
  if h.down then { h with down := false }.startFrom p.duties 0 else h

/-- The tasks that a kill waits for are done. -/
def Awaited (h : Host) (k : Kill) : Prop :=
  ∀ t ∈ h.tasks k.component, t.id ∈ k.awaits → t.life = .done

instance (h : Host) (k : Kill) : Decidable (h.Awaited k) := by
  unfold Awaited
  infer_instance

/-- A task ends when it was cancelled, or by itself if it is no loop. -/
def Ends (t : Task) : Prop := t.life = .cancelling ∨ (t.life = .running ∧ t.duty = none)

instance (t : Task) : Decidable (Ends t) := by
  unfold Ends
  infer_instance

def step (p : Plan) (h : Host) : Event → Option Host
  | .kill => some (h.kill p)
  | .revive => some (h.revive p)
  | .resume i => do
    let k ← h.kills[i]?
    if h.Awaited k then
      some ({ h with kills := h.kills.eraseIdx i }.killFrom
        (p.duties.length - (k.component + 1)) (k.component + 1))
    else none
  | .finish c j => do
    let t ← (h.tasks c)[j]?
    if Ends t then
      some { h with tasks := update h.tasks c ((h.tasks c).set j { t with life := .done }) }
    else none
  | .discard c j => do
    let t ← (h.tasks c)[j]?
    if t.life = .done then some { h with tasks := update h.tasks c ((h.tasks c).eraseIdx j) }
    else none
  | .spawn c => some (h.spawn c none)

/-! ### Down and up -/

/-- No loop of the component is left. -/
def Dead (h : Host) (c : ℕ) : Prop := ∀ t ∈ h.tasks c, t.duty ≠ none → t.life = .done

/-- All loops of the component are running. -/
def Live (h : Host) (c : ℕ) (duties : List Duty) : Prop :=
  ∀ d ∈ duties, ∃ t ∈ h.tasks c, t.duty = some d ∧ t.life = .running

/-- With no kill in progress, the node is wholly down or wholly up. -/
def Whole (p : Plan) (h : Host) : Prop :=
  h.kills = [] →
    (h.down = true → ∀ c < p.duties.length, h.Dead c) ∧
    (h.down = false → ∀ (c : ℕ) (ds : List Duty), p.duties[c]? = some ds → h.Live c ds)

/-- A revival that takes effect finds no kill that still has a component to stop. -/
def Clear (p : Plan) (h : Host) : Event → Prop
  | .revive => h.down = true → ∀ k ∈ h.kills, p.duties.length ≤ k.component + 1
  | _ => True

/-! ### Tasks that fade -/

/-- The same task, perhaps cancelled or done by now. -/
structure Faded (t t' : Task) : Prop where
  id : t'.id = t.id
  duty : t'.duty = t.duty
  done : t.life = .done → t'.life = .done
  running : t'.life = .running → t.life = .running

theorem Faded.refl (t : Task) : Faded t t := ⟨rfl, rfl, fun h => h, fun h => h⟩

theorem Faded.trans {t t' t'' : Task} (h : Faded t t') (h' : Faded t' t'') : Faded t t'' :=
  ⟨h'.id.trans h.id, h'.duty.trans h.duty, h'.done ∘ h.done, h.running ∘ h'.running⟩

theorem faded_cancel (t : Task) : Faded t (cancel t) := by
  unfold cancel
  split
  · rename_i hr
    exact ⟨rfl, rfl, fun h => absurd (hr.symm.trans h) (by decide), fun h => by cases h⟩
  · exact Faded.refl t

theorem cancel_ne_running (t : Task) : (cancel t).life ≠ .running := by
  unfold cancel
  split
  · exact fun h => by cases h
  · assumption

theorem faded_done (t : Task) : Faded t { t with life := .done } :=
  ⟨rfl, rfl, fun _ => rfl, fun h => by cases h⟩

/-- All tasks were there before. -/
def Fades (h h' : Host) : Prop := ∀ c, ∀ t' ∈ h'.tasks c, ∃ t ∈ h.tasks c, Faded t t'

theorem Fades.refl (h : Host) : h.Fades h := fun _ t ht => ⟨t, ht, Faded.refl t⟩

/-- Only one component changes. -/
theorem fades_update {h : Host} {c : ℕ} {l : List Task}
    (hl : ∀ t' ∈ l, ∃ t ∈ h.tasks c, Faded t t') {h' : Host} (ht : h'.tasks = update h.tasks c l) :
    h.Fades h' := by
  intro c' t' ht'
  rw [ht] at ht'
  by_cases hc : c' = c
  · subst hc
    rw [Function.update_self] at ht'
    exact hl t' ht'
  · rw [Function.update_of_ne hc] at ht'
    exact ⟨t', ht', Faded.refl t'⟩

theorem Fades.dead {h h' : Host} (hf : h.Fades h') {c : ℕ} (hd : h.Dead c) : h'.Dead c := by
  intro t' ht' hduty
  obtain ⟨t, ht, hft⟩ := hf c t' ht'
  exact hft.done (hd t ht (hft.duty ▸ hduty))

variable {h h' : Host} {p : Plan}

/-! ### Kills that go on -/

@[simp] theorem killFrom_down (h : Host) (n c : ℕ) : (h.killFrom n c).down = h.down := by
  induction n generalizing c with
  | zero => rfl
  | succ n ih =>
    unfold killFrom
    split
    · exact ih (c + 1)
    · rfl

@[simp] theorem killFrom_nextTask (h : Host) (n c : ℕ) :
    (h.killFrom n c).nextTask = h.nextTask := by
  induction n generalizing c with
  | zero => rfl
  | succ n ih =>
    unfold killFrom
    split
    · exact ih (c + 1)
    · rfl

theorem fades_killFrom (h : Host) (n c : ℕ) : h.Fades (h.killFrom n c) := by
  induction n generalizing c with
  | zero => exact Fades.refl h
  | succ n ih =>
    unfold killFrom
    split
    · exact ih (c + 1)
    · refine fades_update (fun t' ht' => ?_) rfl
      obtain ⟨t, ht, rfl⟩ := List.mem_map.mp ht'
      exact ⟨t, ht, faded_cancel t⟩

/-- A kill that goes on waits in one of the components it has still to stop, or is over. -/
theorem killFrom_kills (h : Host) (n c : ℕ) : (h.killFrom n c).kills = h.kills ∨
    ∃ k, (h.killFrom n c).kills = h.kills ++ [k] ∧ c ≤ k.component ∧ k.component < c + n ∧
      (∀ i ∈ k.awaits, ∃ t ∈ h.tasks k.component, t.id = i) ∧
      ∀ t ∈ (h.killFrom n c).tasks k.component, t.life ≠ .running ∧ t.id ∈ k.awaits := by
  induction n generalizing c with
  | zero => exact .inl rfl
  | succ n ih =>
    unfold killFrom
    split
    · rcases ih (c + 1) with heq | ⟨k, heq, hc, hn, hk⟩
      · exact .inl heq
      · exact .inr ⟨k, heq, by omega, by omega, hk⟩
    · refine .inr ⟨_, rfl, Nat.le_refl c, Nat.lt_add_of_pos_right n.succ_pos, fun i hi => ?_,
        fun t ht => ?_⟩
      · obtain ⟨t, ht, rfl⟩ := List.mem_map.mp hi
        exact ⟨t, ht, rfl⟩
      · replace ht : t ∈ update h.tasks c ((h.tasks c).map cancel) c := ht
        rw [Function.update_self] at ht
        obtain ⟨t₀, ht₀, rfl⟩ := List.mem_map.mp ht
        exact ⟨cancel_ne_running t₀, List.mem_map.mpr ⟨t₀, ht₀, ((faded_cancel t₀).id).symm⟩⟩

theorem mem_killFrom {n c : ℕ} {k : Kill} (hk : k ∈ h.kills) : k ∈ (h.killFrom n c).kills := by
  rcases killFrom_kills h n c with heq | ⟨k', heq, -⟩
  · exact heq ▸ hk
  · rw [heq]
    exact List.mem_append_left _ hk

/-! ### The invariant -/

/-- The loops of a node that is down are done, or a kill is still at them. -/
def Going (p : Plan) (h : Host) : Prop :=
  (∀ c < p.duties.length, h.Dead c) ∨ ∃ k ∈ h.kills, (∀ c < k.component, h.Dead c) ∧
    ∀ t ∈ h.tasks k.component, t.duty ≠ none → t.life = .done ∨ t.id ∈ k.awaits

/-- Kills wait for tasks that were there, and that they have cancelled. -/
structure Sound (p : Plan) (h : Host) : Prop where
  component : ∀ k ∈ h.kills, k.component < p.duties.length
  ids : ∀ c, ∀ t ∈ h.tasks c, t.id < h.nextTask
  awaits : ∀ k ∈ h.kills, ∀ i ∈ k.awaits, i < h.nextTask
  cancelled : ∀ k ∈ h.kills, ∀ t ∈ h.tasks k.component, t.id ∈ k.awaits → t.life ≠ .running

/-- Tasks fade, and kills come to an end. -/
theorem Sound.fades (hs : h.Sound p) (hf : h.Fades h') (hk : ∀ k ∈ h'.kills, k ∈ h.kills)
    (hn : h'.nextTask = h.nextTask) : h'.Sound p where
  component k hk' := hs.component k (hk k hk')
  ids c t' ht' := by
    obtain ⟨t, ht, hft⟩ := hf c t' ht'
    rw [hn, hft.id]
    exact hs.ids c t ht
  awaits k hk' i hi := hn ▸ hs.awaits k (hk k hk') i hi
  cancelled k hk' t' ht' hi hr := by
    obtain ⟨t, ht, hft⟩ := hf _ t' ht'
    exact hs.cancelled k (hk k hk') t ht (hft.id ▸ hi) (hft.running hr)

theorem Sound.killFrom (hs : h.Sound p) {n c : ℕ} (hn : c + n ≤ p.duties.length) :
    (h.killFrom n c).Sound p := by
  have hf := fades_killFrom h n c
  rcases killFrom_kills h n c with hkills | ⟨k, hkills, hc, hlt, hids, htasks⟩
  · exact hs.fades hf (fun k hk => hkills ▸ hk) (killFrom_nextTask h n c)
  · -- one kill more, which has cancelled what it waits for
    have hmem : ∀ k' ∈ (h.killFrom n c).kills, k' ∈ h.kills ∨ k' = k := by
      intro k' hk'
      rw [hkills, List.mem_append, List.mem_singleton] at hk'
      exact hk'
    refine ⟨fun k' hk' => ?_, fun c' t' ht' => ?_, fun k' hk' i hi => ?_,
      fun k' hk' t' ht' hi => ?_⟩
    · rcases hmem k' hk' with hk' | rfl
      · exact hs.component k' hk'
      · omega
    · obtain ⟨t, ht, hft⟩ := hf c' t' ht'
      rw [killFrom_nextTask, hft.id]
      exact hs.ids c' t ht
    · rw [killFrom_nextTask]
      rcases hmem k' hk' with hk' | rfl
      · exact hs.awaits k' hk' i hi
      · obtain ⟨t, ht, rfl⟩ := hids i hi
        exact hs.ids _ t ht
    · rcases hmem k' hk' with hk' | rfl
      · obtain ⟨t, ht, hft⟩ := hf _ t' ht'
        exact fun hr => hs.cancelled k' hk' t ht (hft.id ▸ hi) (hft.running hr)
      · exact (htasks t' ht').1

theorem mem_spawn {c c' : ℕ} {duty : Option Duty} {t : Task} (ht : t ∈ (h.spawn c duty).tasks c') :
    t ∈ h.tasks c' ∨ t = ⟨h.nextTask, duty, .running⟩ := by
  replace ht : t ∈ update h.tasks c (h.tasks c ++ [⟨h.nextTask, duty, .running⟩]) c' := ht
  by_cases hc : c' = c
  · subst hc
    rw [Function.update_self] at ht
    rcases List.mem_append.mp ht with ht | ht
    · exact .inl ht
    · exact .inr (List.mem_singleton.mp ht)
  · rw [Function.update_of_ne hc] at ht
    exact .inl ht

/-- A new task is not among those that kills wait for. -/
theorem Sound.spawn (hs : h.Sound p) (c : ℕ) (duty : Option Duty) : (h.spawn c duty).Sound p := by
  refine ⟨hs.component, fun c' t ht => ?_, fun k hk i hi => ?_, fun k hk t ht hi => ?_⟩
  · show t.id < h.nextTask + 1
    rcases mem_spawn ht with ht | rfl
    · exact Nat.lt_succ_of_lt (hs.ids c' t ht)
    · exact Nat.lt_succ_self _
  · exact Nat.lt_succ_of_lt (hs.awaits k hk i hi)
  · rcases mem_spawn ht with ht | rfl
    · exact hs.cancelled k hk t ht hi
    · exact absurd (hs.awaits k hk _ hi) (Nat.lt_irrefl _)

theorem Sound.start (hs : h.Sound p) (c : ℕ) (duties : List Duty) : (h.start c duties).Sound p := by
  unfold Host.start
  induction duties generalizing h with
  | nil => exact hs
  | cons d duties ih => exact ih (hs.spawn c (some d))

theorem Sound.startFrom (hs : h.Sound p) (rest : List (List Duty)) (c : ℕ) :
    (h.startFrom rest c).Sound p := by
  induction rest generalizing h c with
  | nil => exact hs
  | cons ds rest ih => exact ih (hs.start c ds) (c + 1)

/-- A kill that has stopped the components before `c` goes on. -/
theorem going_killFrom {n c : ℕ} (hd : ∀ c' < c, h.Dead c') (hn : c + n = p.duties.length) :
    (h.killFrom n c).Going p := by
  induction n generalizing c with
  | zero =>
    refine .inl fun c' hc' => hd c' ?_
    omega
  | succ n ih =>
    unfold killFrom
    split
    · rename_i hempty
      refine ih (fun c' hc' => ?_) (by omega)
      rcases Nat.lt_or_ge c' c with hlt | hge
      · exact hd c' hlt
      · obtain rfl : c' = c := by omega
        intro t ht
        rw [hempty] at ht
        cases ht
    · refine .inr ⟨_, List.mem_append_right _ List.mem_cons_self, fun c' hc' => ?_,
        fun t ht _ => ?_⟩
      · refine Fades.dead (fades_update (fun t' ht' => ?_) rfl) (hd c' hc')
        obtain ⟨t, ht, rfl⟩ := List.mem_map.mp ht'
        exact ⟨t, ht, faded_cancel t⟩
      · replace ht : t ∈ update h.tasks c ((h.tasks c).map cancel) c := ht
        rw [Function.update_self] at ht
        obtain ⟨t₀, ht₀, rfl⟩ := List.mem_map.mp ht
        exact .inr (List.mem_map.mpr ⟨t₀, ht₀, ((faded_cancel t₀).id).symm⟩)

theorem Going.fades (hg : h.Going p) (hf : h.Fades h') (hk : ∀ k ∈ h.kills, k ∈ h'.kills) :
    h'.Going p := by
  rcases hg with hdead | ⟨k, hmem, hbefore, hat⟩
  · exact .inl fun c hc => hf.dead (hdead c hc)
  · refine .inr ⟨k, hk k hmem, fun c hc => hf.dead (hbefore c hc), fun t' ht' hduty => ?_⟩
    obtain ⟨t, ht, hft⟩ := hf _ t' ht'
    rcases hat t ht (hft.duty ▸ hduty) with hdone | hawait
    · exact .inl (hft.done hdone)
    · exact .inr (hft.id.symm ▸ hawait)

/-- No loop of the component is running. -/
def Gone (h : Host) (c : ℕ) : Prop := ∀ t ∈ h.tasks c, t.life = .running → t.duty = none

theorem Fades.gone {c : ℕ} (hf : h.Fades h') (hg : h.Gone c) : h'.Gone c := by
  intro t' ht' hr
  obtain ⟨t, ht, hft⟩ := hf c t' ht'
  rw [hft.duty]
  exact hg t ht (hft.running hr)

/-- A component whose loops are gone, or will be when the kills have gone on. -/
def Doomed (h : Host) (c : ℕ) : Prop := h.Gone c ∨ ∃ k ∈ h.kills, k.component < c

/-- A kill cancels all components that it goes through. -/
theorem doomed_killFrom {n c c' : ℕ} (hc : c ≤ c') (hn : c' < c + n) :
    (h.killFrom n c).Doomed c' := by
  induction n generalizing c with
  | zero => omega
  | succ n ih =>
    unfold killFrom
    split
    · rename_i hempty
      rcases Nat.lt_or_eq_of_le hc with hlt | rfl
      · exact ih hlt (by omega)
      · refine .inl fun t' ht' => ?_
        obtain ⟨t, ht, -⟩ := fades_killFrom h n (c + 1) c t' ht'
        rw [hempty] at ht
        cases ht
    · rcases Nat.lt_or_eq_of_le hc with hlt | rfl
      · exact .inr ⟨_, List.mem_append_right _ List.mem_cons_self, hlt⟩
      · refine .inl fun t ht hr => ?_
        replace ht : t ∈ update h.tasks c ((h.tasks c).map cancel) c := ht
        rw [Function.update_self] at ht
        obtain ⟨t₀, -, rfl⟩ := List.mem_map.mp ht
        exact absurd hr (cancel_ne_running t₀)

/-! ### Loops that stay -/

/-- No running loop goes. -/
def Keeps (h h' : Host) : Prop :=
  ∀ c, ∀ t ∈ h.tasks c, t.life = .running → t.duty ≠ none → t ∈ h'.tasks c

theorem Keeps.live (hk : h.Keeps h') {c : ℕ} {ds : List Duty} (hl : h.Live c ds) :
    h'.Live c ds := by
  intro d hd
  obtain ⟨t, ht, hduty, hr⟩ := hl d hd
  exact ⟨t, hk c t ht hr (by rw [hduty]; exact Option.some_ne_none d), hduty, hr⟩

theorem keeps_update {c : ℕ} {l : List Task}
    (hl : ∀ t ∈ h.tasks c, t.life = .running → t.duty ≠ none → t ∈ l)
    (ht : h'.tasks = update h.tasks c l) : h.Keeps h' := by
  intro c' t htc hr hduty
  rw [ht]
  by_cases hc : c' = c
  · subst hc
    rw [Function.update_self]
    exact hl t htc hr hduty
  · rw [Function.update_of_ne hc]
    exact htc

theorem keeps_spawn (h : Host) (c : ℕ) (duty : Option Duty) : h.Keeps (h.spawn c duty) :=
  keeps_update (fun _ ht _ _ => List.mem_append_left _ ht) rfl

theorem keeps_start (h : Host) (c : ℕ) (duties : List Duty) : h.Keeps (h.start c duties) := by
  unfold start
  induction duties generalizing h with
  | nil => exact fun _ _ ht _ _ => ht
  | cons d duties ih =>
    intro c' t ht hr hduty
    exact ih (h.spawn c (some d)) c' t (h.keeps_spawn c (some d) c' t ht hr hduty) hr hduty

theorem live_start (h : Host) (c : ℕ) (duties : List Duty) : (h.start c duties).Live c duties := by
  unfold start
  induction duties generalizing h with
  | nil => exact fun d hd => by cases hd
  | cons d duties ih =>
    intro d' hd'
    rcases List.mem_cons.mp hd' with rfl | hd'
    · have hnew : (h.spawn c (some d')).Live c [d'] := by
        intro d hd
        obtain rfl := List.mem_singleton.mp hd
        refine ⟨⟨h.nextTask, some d, .running⟩, ?_, rfl, rfl⟩
        show _ ∈ update h.tasks c _ c
        rw [Function.update_self]
        exact List.mem_append_right _ List.mem_cons_self
      exact (keeps_start (h.spawn c (some d')) c duties).live hnew d' List.mem_cons_self
    · exact ih (h.spawn c (some d)) d' hd'

theorem keeps_startFrom (h : Host) (rest : List (List Duty)) (c : ℕ) :
    h.Keeps (h.startFrom rest c) := by
  induction rest generalizing h c with
  | nil => exact fun _ _ ht _ _ => ht
  | cons ds rest ih =>
    intro c' t ht hr hduty
    exact ih (h.start c ds) (c + 1) c' t (h.keeps_start c ds c' t ht hr hduty) hr hduty

/-- A start of all components leaves all loops running. -/
theorem live_startFrom (h : Host) (rest : List (List Duty)) (c j : ℕ) {ds : List Duty}
    (hj : rest[j]? = some ds) : (h.startFrom rest c).Live (c + j) ds := by
  induction rest generalizing h c j with
  | nil => cases hj
  | cons ds' rest ih =>
    cases j with
    | zero =>
      obtain rfl := Option.some.inj hj
      exact (keeps_startFrom (h.start c ds') rest (c + 1)).live (live_start h c ds')
    | succ j =>
      have := ih (h.start c ds') (c + 1) j hj
      rw [show c + (j + 1) = c + 1 + j by omega]
      exact this

theorem start_kills (h : Host) (c : ℕ) (duties : List Duty) :
    (h.start c duties).kills = h.kills ∧ (h.start c duties).down = h.down := by
  unfold start
  induction duties generalizing h with
  | nil => exact ⟨rfl, rfl⟩
  | cons d duties ih => exact ih (h.spawn c (some d))

theorem startFrom_kills (h : Host) (rest : List (List Duty)) (c : ℕ) :
    (h.startFrom rest c).kills = h.kills ∧ (h.startFrom rest c).down = h.down := by
  induction rest generalizing h c with
  | nil => exact ⟨rfl, rfl⟩
  | cons ds rest ih =>
    obtain ⟨hk, hd⟩ := ih (h.start c ds) (c + 1)
    obtain ⟨hk', hd'⟩ := h.start_kills c ds
    exact ⟨hk.trans hk', hd.trans hd'⟩

/-! ### What a step does -/

theorem fades_of_tasks (ht : h'.tasks = h.tasks) : h.Fades h' := by
  intro c t hmem
  rw [ht] at hmem
  exact ⟨t, hmem, Faded.refl t⟩

/-- The steps of the tasks of a node, and of the kills that go on. -/
inductive Moves (p : Plan) (h : Host) : Event → Host → Prop
  | kill (up : h.down = false) :
      Moves p h .kill ({ h with down := true }.killFrom p.duties.length 0)
  | revive (down : h.down = true) :
      Moves p h .revive ({ h with down := false }.startFrom p.duties 0)
  | resume {i : ℕ} {k : Kill} (kill : h.kills[i]? = some k) (awaited : h.Awaited k) :
      Moves p h (.resume i) ({ h with kills := h.kills.eraseIdx i }.killFrom
        (p.duties.length - (k.component + 1)) (k.component + 1))
  /-- A task ends or goes, or a kill or a revival finds nothing to do. -/
  | other {e : Event} {h' : Host} (idle : e ≠ .revive ∨ h.down = false) (fades : h.Fades h')
      (keeps : h.Keeps h') (kills : h'.kills = h.kills) (down : h'.down = h.down)
      (nextTask : h'.nextTask = h.nextTask) : Moves p h e h'
  | spawn (c : ℕ) : Moves p h (.spawn c) (h.spawn c none)

theorem moves {e : Event} (hs : h.step p e = some h') : Moves p h e h' := by
  cases e with
  | kill =>
    obtain rfl := Option.some.inj hs
    unfold kill
    split
    · exact .other (.inl (by simp)) (Fades.refl h) (fun _ _ ht _ _ => ht) rfl rfl rfl
    · rename_i hup
      exact .kill (Bool.eq_false_iff.mpr hup)
  | revive =>
    obtain rfl := Option.some.inj hs
    unfold revive
    split
    · rename_i hdown
      exact .revive hdown
    · rename_i hup
      exact .other (.inr (Bool.eq_false_iff.mpr hup)) (Fades.refl h) (fun _ _ ht _ _ => ht)
        rfl rfl rfl
  | resume i =>
    obtain ⟨k, hk, hs⟩ := Option.bind_eq_some_iff.mp hs
    obtain ⟨ha, hs⟩ := Option.ite_none_right_eq_some.mp hs
    obtain rfl := Option.some.inj hs
    exact .resume hk ha
  | finish c j =>
    obtain ⟨t, ht, hs⟩ := Option.bind_eq_some_iff.mp hs
    obtain ⟨he, hs⟩ := Option.ite_none_right_eq_some.mp hs
    obtain rfl := Option.some.inj hs
    obtain ⟨hj, rfl⟩ := List.getElem?_eq_some_iff.mp ht
    refine .other (.inl (by simp)) (fades_update (fun t' ht' => ?_) rfl)
      (keeps_update (fun t' ht' hr hduty => ?_) rfl) rfl rfl rfl
    · rcases List.mem_or_eq_of_mem_set ht' with ht' | rfl
      · exact ⟨t', ht', Faded.refl t'⟩
      · exact ⟨_, List.getElem_mem hj, faded_done _⟩
    · -- a running loop is another task than the one that ends
      obtain ⟨i, hi, rfl⟩ := List.mem_iff_getElem.mp ht'
      by_cases hij : i = j
      · subst hij
        rcases he with hc | ⟨-, hnone⟩
        · exact absurd (hr.symm.trans hc) (by decide)
        · exact absurd hnone hduty
      · refine List.mem_iff_getElem.mpr ⟨i, by simpa using hi, ?_⟩
        exact List.getElem_set_ne (Ne.symm hij) _
  | discard c j =>
    obtain ⟨t, ht, hs⟩ := Option.bind_eq_some_iff.mp hs
    obtain ⟨hd, hs⟩ := Option.ite_none_right_eq_some.mp hs
    obtain rfl := Option.some.inj hs
    refine .other (.inl (by simp)) (fades_update (fun t' ht' => ?_) rfl)
      (keeps_update (fun t' ht' hr hduty => ?_) rfl) rfl rfl rfl
    · exact ⟨t', List.mem_of_mem_eraseIdx ht', Faded.refl t'⟩
    · obtain ⟨i, hi⟩ := List.mem_iff_getElem?.mp ht'
      refine List.mem_eraseIdx_iff_getElem?.mpr ⟨i, fun hij => ?_, hi⟩
      subst hij
      obtain rfl := Option.some.inj (ht.symm.trans hi)
      exact absurd (hr.symm.trans hd) (by decide)
  | spawn c =>
    obtain rfl := Option.some.inj hs
    exact .spawn c

/-- What holds between the steps of every run. -/
structure Held (p : Plan) (h : Host) : Prop extends Sound p h where
  going : h.down = true → h.Going p

theorem held_boot (p : Plan) : (boot p).Held p where
  toSound := by
    refine Sound.startFrom ⟨fun k hk => ?_, fun c t ht => ?_, fun k hk => ?_, fun k hk => ?_⟩ _ _
    · cases hk
    · cases ht
    · cases hk
    · cases hk
  going hd := by
    rw [show (boot p).down = false from (startFrom_kills _ _ _).2] at hd
    cases hd

/-- The kill that has waited for its tasks has stopped its component. -/
theorem Going.resume (hs : h.Sound p) (hg : h.Going p) {i : ℕ} {k : Kill}
    (hk : h.kills[i]? = some k) (ha : h.Awaited k) :
    Going p ({ h with kills := h.kills.eraseIdx i }.killFrom
      (p.duties.length - (k.component + 1)) (k.component + 1)) := by
  have hlt := hs.component k (List.mem_of_getElem? hk)
  rcases hg with hdead | ⟨k₀, hmem, hbefore, hat⟩
  · refine .inl fun c hc => Fades.dead (fades_killFrom _ _ _) ?_
    exact hdead c hc
  · by_cases heq : k₀ = k
    · subst heq
      refine going_killFrom (fun c hc => ?_) (by omega)
      rcases Nat.lt_or_ge c k₀.component with hlt | hge
      · exact hbefore c hlt
      · obtain rfl : c = k₀.component := by omega
        intro t ht hduty
        rcases hat t ht hduty with hdone | hawait
        · exact hdone
        · exact ha t ht hawait
    · -- another kill is at the loops
      have hstay : k₀ ∈ h.kills.eraseIdx i := by
        obtain ⟨j, hj⟩ := List.mem_iff_getElem?.mp hmem
        refine List.mem_eraseIdx_iff_getElem?.mpr ⟨j, fun hji => ?_, hj⟩
        subst hji
        exact heq (Option.some.inj (hj.symm.trans hk))
      have hg' : Going p { h with kills := h.kills.eraseIdx i } := .inr ⟨k₀, hstay, hbefore, hat⟩
      exact hg'.fades (fades_killFrom _ _ _) fun k hk => mem_killFrom hk

theorem Held.step {e : Event} (hh : h.Held p) (hs : h.step p e = some h') : h'.Held p := by
  have hsound := hh.toSound
  cases moves hs with
  | kill up =>
    have hdown : Sound p { h with down := true } :=
      hsound.fades (fades_of_tasks rfl) (fun k hk => hk) rfl
    refine ⟨hdown.killFrom (by omega), fun _ => going_killFrom (fun c hc => by omega) (by omega)⟩
  | revive down =>
    have hup : Sound p { h with down := false } :=
      hsound.fades (fades_of_tasks rfl) (fun k hk => hk) rfl
    refine ⟨hup.startFrom _ _, fun hd => ?_⟩
    rw [(startFrom_kills _ _ _).2] at hd
    cases hd
  | @resume i k hk ha =>
    have hlt := hsound.component k (List.mem_of_getElem? hk)
    have herase : Sound p { h with kills := h.kills.eraseIdx i } :=
      hsound.fades (fades_of_tasks rfl) (fun k hk => List.mem_of_mem_eraseIdx hk) rfl
    refine ⟨herase.killFrom (by omega), fun hd => ?_⟩
    rw [killFrom_down] at hd
    exact (hh.going hd).resume hsound hk ha
  | other _ hf _ hk hd hn =>
    refine ⟨hsound.fades hf (fun k hk' => hk ▸ hk') hn, fun hdown => ?_⟩
    exact (hh.going (hd ▸ hdown)).fades hf fun k hk' => hk ▸ hk'
  | spawn c =>
    refine ⟨hsound.spawn c none, fun hd => ?_⟩
    -- the new task is no loop
    rcases hh.going hd with hdead | ⟨k, hmem, hbefore, hat⟩
    · refine .inl fun c' hc' t ht hduty => ?_
      rcases mem_spawn ht with ht | rfl
      · exact hdead c' hc' t ht hduty
      · exact absurd rfl hduty
    · refine .inr ⟨k, hmem, fun c' hc' t ht hduty => ?_, fun t ht hduty => ?_⟩
      · rcases mem_spawn ht with ht | rfl
        · exact hbefore c' hc' t ht hduty
        · exact absurd rfl hduty
      · rcases mem_spawn ht with ht | rfl
        · exact hat t ht hduty
        · exact absurd rfl hduty

/-- What holds along clear runs. -/
structure Clean (p : Plan) (h : Host) : Prop extends Held p h where
  /-- A node that is up has all its loops, and no kill has anything left to stop. -/
  up : h.down = false →
    (∀ (c : ℕ) (ds : List Duty), p.duties[c]? = some ds → h.Live c ds) ∧
      ∀ k ∈ h.kills, p.duties.length ≤ k.component + 1

theorem clean_boot (p : Plan) : (boot p).Clean p where
  toHeld := held_boot p
  up _ := by
    refine ⟨fun c ds hc => ?_, fun k hk => ?_⟩
    · have := live_startFrom ⟨false, fun _ => [], [], 0⟩ p.duties 0 c hc
      rw [Nat.zero_add] at this
      exact this
    · rw [show (boot p).kills = [] from (startFrom_kills _ _ _).1] at hk
      cases hk

theorem Clean.step {e : Event} (hc : h.Clean p) (hclear : h.Clear p e) (hs : h.step p e = some h') :
    h'.Clean p := by
  refine ⟨hc.toHeld.step hs, fun hup => ?_⟩
  cases moves hs with
  | kill up =>
    rw [killFrom_down] at hup
    cases hup
  | revive down =>
    refine ⟨fun c ds hcd => ?_, fun k hk => ?_⟩
    · have := live_startFrom { h with down := false } p.duties 0 c hcd
      rw [Nat.zero_add] at this
      exact this
    · rw [(startFrom_kills _ _ _).1] at hk
      exact hclear down k hk
  | @resume i k hk ha =>
    rw [killFrom_down] at hup
    obtain ⟨hlive, hkills⟩ := hc.up hup
    -- this kill has nothing left to stop
    have hlast := hkills k (List.mem_of_getElem? hk)
    rw [show p.duties.length - (k.component + 1) = 0 by omega]
    exact ⟨hlive, fun k' hk' => hkills k' (List.mem_of_mem_eraseIdx hk')⟩
  | other _ hf hkeep hk hd hn =>
    obtain ⟨hlive, hkills⟩ := hc.up (hd ▸ hup)
    exact ⟨fun c ds hcd => hkeep.live (hlive c ds hcd), fun k hk' => hkills k (hk ▸ hk')⟩
  | spawn c =>
    obtain ⟨hlive, hkills⟩ := hc.up hup
    exact ⟨fun c' ds hcd => (keeps_spawn h c none).live (hlive c' ds hcd), hkills⟩

theorem Clean.whole (hc : h.Clean p) : h.Whole p := by
  intro hnone
  refine ⟨fun hd => ?_, fun hup => (hc.up hup).1⟩
  rcases hc.going hd with hdead | ⟨k, hmem, -⟩
  · exact hdead
  · rw [hnone] at hmem
    cases hmem

/-! ### Bringing everything to its end -/

/-- The steps by which what is in progress comes to its end. -/
def Ending (e : Event) : Prop := (∃ i, e = .resume i) ∨ ∃ c j, e = .finish c j

/-- The cancelled tasks of a component end. -/
theorem exec_finish (p : Plan) (h : Host) (c : ℕ) : ∃ tail, (∀ e ∈ tail, Ending e) ∧ ∃ l,
    Run.exec (step p) h tail = some { h with tasks := update h.tasks c l } ∧
    (∀ t ∈ l, t.life ≠ .cancelling) ∧ ∀ t' ∈ l, ∃ t ∈ h.tasks c, Faded t t' := by
  generalize hn : (h.tasks c).countP (fun t => t.life = .cancelling) = n
  induction n generalizing h with
  | zero =>
    refine ⟨[], (fun e he => by cases he), h.tasks c, ?_, fun t ht hcan => ?_,
      fun t ht => ⟨t, ht, Faded.refl t⟩⟩
    · rw [Function.update_eq_self]
      rfl
    · have := List.countP_eq_zero.mp hn t ht
      simp [hcan] at this
  | succ n ih =>
    obtain ⟨t, ht, hcan⟩ := List.countP_pos_iff.mp (by rw [hn]; exact n.succ_pos)
    obtain ⟨j, hj, rfl⟩ := List.mem_iff_getElem.mp ht
    replace hcan : (h.tasks c)[j].life = .cancelling := of_decide_eq_true hcan
    -- one of them ends, and then the others
    let l := (h.tasks c).set j { (h.tasks c)[j] with life := .done }
    have hstep : step p h (.finish c j) = some { h with tasks := update h.tasks c l } := by
      rw [step, List.getElem?_eq_getElem hj]
      exact if_pos (.inl hcan)
    have hcount : (update h.tasks c l c).countP (fun t => t.life = .cancelling) = n := by
      rw [Function.update_self, List.countP_set hj, hn]
      simp [hcan]
    obtain ⟨tail, htail, l', hexec, hl', hfade⟩ := ih { h with tasks := update h.tasks c l } hcount
    refine ⟨.finish c j :: tail, fun e he => ?_, l', ?_, hl', fun t' ht' => ?_⟩
    · rcases List.mem_cons.mp he with rfl | he
      · exact .inr ⟨c, j, rfl⟩
      · exact htail e he
    · rw [Run.exec, hstep, Option.bind_some, hexec]
      simp
    · obtain ⟨t, ht, hft⟩ := hfade t' ht'
      replace ht : t ∈ update h.tasks c l c := ht
      rw [Function.update_self] at ht
      rcases List.mem_or_eq_of_mem_set ht with ht | rfl
      · exact ⟨t, ht, hft⟩
      · exact ⟨_, List.getElem_mem hj, (faded_done _).trans hft⟩

/-- How many stops the kills in progress are at most away from their ends. -/
def stops (p : Plan) (h : Host) : ℕ := (h.kills.map fun k => p.duties.length - k.component).sum

/-- The first kill in progress can go on, and is then nearer to its end. -/
theorem exec_resume (hs : h.Sound p) (hk : h.kills ≠ []) : ∃ tail, (∀ e ∈ tail, Ending e) ∧ ∃ h',
    Run.exec (step p) h tail = some h' ∧ h'.Sound p ∧ h'.stops p < h.stops p ∧ h'.down = h.down ∧
    ∀ c < p.duties.length, h.Doomed c → h'.Doomed c := by
  obtain ⟨k, kills, hkills⟩ := List.exists_cons_of_ne_nil hk
  have hmem : k ∈ h.kills := hkills ▸ List.mem_cons_self
  obtain ⟨tail, htail, l, hexec, hl, hfade⟩ := exec_finish p h k.component
  let h₁ : Host := { h with tasks := update h.tasks k.component l }
  have hf : h.Fades h₁ := fades_update hfade rfl
  have hs₁ : h₁.Sound p := hs.fades hf (fun k hk => hk) rfl
  have hlt := hs.component k hmem
  -- what it waits for has ended
  have hawaited : h₁.Awaited k := by
    intro t ht hi
    have hne := hs₁.cancelled k hmem t ht hi
    replace ht : t ∈ update h.tasks k.component l k.component := ht
    rw [Function.update_self] at ht
    cases hlife : t.life with
    | running => exact absurd hlife hne
    | cancelling => exact absurd hlife (hl t ht)
    | done => rfl
  let h₂ : Host := { h₁ with kills := kills }
  have hs₂ : h₂.Sound p :=
    hs₁.fades (fades_of_tasks rfl)
      (fun k' hk' => show k' ∈ h.kills from hkills ▸ List.mem_cons_of_mem _ hk') rfl
  have hstep : step p h₁ (.resume 0) =
      some (h₂.killFrom (p.duties.length - (k.component + 1)) (k.component + 1)) := by
    have hget : h₁.kills[0]? = some k := by
      show h.kills[0]? = some k
      rw [hkills]
      rfl
    rw [step, hget]
    show (if h₁.Awaited k then some _ else none) = _
    rw [if_pos hawaited]
    have : h₁.kills.eraseIdx 0 = kills := by
      show h.kills.eraseIdx 0 = kills
      rw [hkills]
      rfl
    rw [this]
  have hend : k.component + 1 + (p.duties.length - (k.component + 1)) ≤ p.duties.length := by omega
  refine ⟨tail ++ [.resume 0], fun e he => ?_, _, Run.exec_append hexec ?_, hs₂.killFrom hend, ?_,
    killFrom_down _ _ _, fun c hc hdoom => ?_⟩
  · rcases List.mem_append.mp he with he | he
    · exact htail e he
    · exact .inl ⟨0, List.mem_singleton.mp he⟩
  · rw [Run.exec, hstep]
    rfl
  · -- one kill less, or one that is further on
    unfold stops
    rw [hkills, List.map_cons, List.sum_cons]
    rcases killFrom_kills h₂ (p.duties.length - (k.component + 1)) (k.component + 1) with
      heq | ⟨k', heq, hc, -⟩
    · rw [heq]
      show (kills.map _).sum < _
      omega
    · rw [heq, List.map_append, List.sum_append]
      show (kills.map _).sum + ((p.duties.length - k'.component) + 0) < _
      omega
  · rcases hdoom with hgone | ⟨k', hmem', hlt'⟩
    · exact .inl ((fades_killFrom h₂ _ _).gone (hf.gone hgone))
    · rw [hkills] at hmem'
      rcases List.mem_cons.mp hmem' with rfl | hmem'
      · have hend : c < k'.component + 1 + (p.duties.length - (k'.component + 1)) := by omega
        exact doomed_killFrom (Nat.succ_le_of_lt hlt') hend
      · exact .inr ⟨k', mem_killFrom hmem', hlt'⟩

/-- All kills in progress come to their ends. -/
theorem exec_settle (hs : h.Sound p) : ∃ tail, (∀ e ∈ tail, Ending e) ∧ ∃ h',
    Run.exec (step p) h tail = some h' ∧ h'.kills = [] ∧ h'.down = h.down ∧
    ∀ c < p.duties.length, h.Doomed c → h'.Gone c := by
  generalize hn : h.stops p = n
  induction n using Nat.strongRecOn generalizing h with
  | _ n ih =>
    by_cases hk : h.kills = []
    · refine ⟨[], (fun e he => by cases he), h, rfl, hk, rfl, fun c _ hd => hd.resolve_right ?_⟩
      rintro ⟨k, hmem, -⟩
      rw [hk] at hmem
      cases hmem
    · obtain ⟨tail, htail, h₁, hexec, hs₁, hlt, hdown, hdoom⟩ := exec_resume hs hk
      obtain ⟨tail', htail', h', hexec', hkills, hdown', hdoom'⟩ := ih _ (hn ▸ hlt) hs₁ rfl
      refine ⟨tail ++ tail', fun e he => ?_, h', Run.exec_append hexec hexec', hkills,
        hdown'.trans hdown, fun c hc hd => hdoom' c hc (hdoom c hc hd)⟩
      rcases List.mem_append.mp he with he | he
      · exact htail e he
      · exact htail' e he

/-- A revival that a kill overtakes leaves a component without its loops. -/
theorem not_whole_of_overtaken {e : Event} (hh : h.Held p) (hclear : ¬ h.Clear p e)
    (hs : h.step p e = some h') : ∃ tail, (∀ e ∈ tail, Ending e) ∧
      ¬ Run.Always (step p) (Whole p) h' tail := by
  -- only a revival is not clear
  obtain ⟨rfl, hdown, k, hmem, hlt⟩ : e = .revive ∧ h.down = true ∧
      ∃ k ∈ h.kills, k.component + 1 < p.duties.length := by
    cases e with
    | revive =>
      unfold Clear at hclear
      push Not at hclear
      obtain ⟨hdown, k, hmem, hlt⟩ := hclear
      exact ⟨rfl, hdown, k, hmem, by omega⟩
    | _ => exact absurd trivial hclear
  obtain ⟨tail, htail, h'', hexec, hkills, hdown', hgone⟩ := exec_settle (hh.step hs).toSound
  refine ⟨tail, htail, fun halways => ?_⟩
  have hwhole := halways.of_exec hexec hkills
  obtain rfl : { h with down := false }.startFrom p.duties 0 = h' := by
    rw [step, revive, if_pos hdown] at hs
    exact Option.some.inj hs
  obtain ⟨hsame, hup⟩ := startFrom_kills { h with down := false } p.duties 0
  have hdoom : ({ h with down := false }.startFrom p.duties 0).Doomed (k.component + 1) :=
    .inr ⟨k, hsame.symm ▸ hmem, Nat.lt_succ_self _⟩
  -- the component has a loop that should be running
  have hds := List.getElem?_eq_getElem hlt
  obtain ⟨d, hd⟩ := List.exists_mem_of_ne_nil _ (p.nonempty _ (List.getElem_mem hlt))
  obtain ⟨t, ht, hduty, hr⟩ := hwhole.2 (hdown'.trans hup) _ _ hds d hd
  have := hgone _ hlt hdoom t ht hr
  rw [hduty] at this
  cases this

/-- **A node is wholly down or wholly up**, whenever no kill or revival of it is in progress, along
a run and however what is in progress comes to its end from any moment of it, exactly if no revival
of the run begins while a kill still has a component to stop. -/
theorem down_or_up (p : Plan) (es : List Event) :
    Run.Meets (step p) (Clear p) (boot p) es ↔
      ∀ before ending : List Event, before <+: es → (∀ e ∈ ending, Ending e) →
        Run.Always (step p) (Whole p) (boot p) (before ++ ending) := by
  have hboot := clean_boot p
  simp only [Run.always_iff_head_meets, hboot.whole, true_and]
  refine Run.meets_iff_quiet (fun h e h' hs (hc : Clean p h) hclear => hc.step hclear hs)
    (fun h e hc hclear h' hs => (hc.step hclear hs).whole) (fun h e he => ?_)
    (fun h e h' hs hc hclear hright => ?_) hboot es
  · rcases he with ⟨i, rfl⟩ | ⟨c, j, rfl⟩ <;> trivial
  · obtain ⟨tail, htail, hwrong⟩ := not_whole_of_overtaken hc.toHeld hclear hs
    refine ⟨tail, htail, fun hmeets => hwrong ?_⟩
    exact Run.always_iff_head_meets.mpr ⟨hright h' hs, hmeets⟩

/-- While a kill waits for the SWIM loops of a node to end, the node is revived.  The kill goes on
to stop its Raft node: what is left is a node that is up, and has no Raft loop. -/
theorem half_revived : ¬ ∀ (p : Plan) (es : List Event),
    Run.Always (step p) (Whole p) (boot p) es := by
  intro h
  have hrun := h consensus [.kill, .revive, .finish 0 0, .finish 0 1, .resume 0, .finish 1 0,
    .finish 1 1, .finish 1 2, .finish 1 3, .resume 0]
  have hlast := ((((((((((hrun.2 _ rfl).2 _ rfl).2 _ rfl).2 _ rfl).2 _ rfl).2 _ rfl).2 _ rfl).2 _
    rfl).2 _ rfl).2 _ rfl).head
  obtain ⟨t, ht, hduty, hr⟩ := (hlast rfl).2 rfl 1 _ rfl .run List.mem_cons_self
  revert t
  decide

end Host

end Playground
