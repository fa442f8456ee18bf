/-
SWIM on the sides of a partition (`playground.py`, `MemoryNetwork.delivers`, `_Endpoint.sendto`).

Whether a datagram gets through is decided when it is sent: what is on its way when a
partition begins may still arrive, and what is sent across it later does not.

* `World.Crosses` — a datagram arrives that has been sent across the partition;
  `World.Split` — runs in which none does;
* `World.Alone` — runs in which only some of the nodes take steps;
* `Mirrors` — a world that is on one side what another one is; `Mirrors.step`;
* **`World.sides_go_on_alone`** — during a split, a side does what it could do as well if all
  the others had stopped;
* **`World.split_is_noticed`** — so a probe across the partition that begins in such a run
  does not leave its target `ALIVE`.
-/
import Dssd.SwimCrash

namespace Swim

namespace World

open Function (update)
open Relation (ReflTransGen)

variable {ι : Type} [DecidableEq ι]

/-- The event is the arrival of a datagram that was sent to another side, and later than the first
`start` entries of the log. -/
def Crosses (net : Net ι) (side : ι → ℕ) (start : ℕ) (w : World ι) : Event ι → Prop
  | .act _ _ => False
  | .deliver i => start ≤ i ∧ ∃ sent ∈ w.log[i]?, ∃ n ∈ (Event.deliver i).node? net w,
      side sent.1 ≠ side n

instance (net : Net ι) (side : ι → ℕ) (start : ℕ) (w : World ι) :
    (e : Event ι) → Decidable (w.Crosses net side start e)
  | .act _ _ => .isFalse id
  | .deliver i => inferInstanceAs (Decidable (start ≤ i ∧ ∃ sent ∈ w.log[i]?,
      ∃ n ∈ (Event.deliver i).node? net w, side sent.1 ≠ side n))

/-- A run during which nothing is sent from one side to another. -/
def Split (net : Net ι) (side : ι → ℕ) (w w' : World ι) : Prop :=
  ReflTransGen (Run.StepWhere (step net) fun x e => ¬ x.Crosses net side w.log.length e) w w'

/-- A run in which only these nodes take steps. -/
def Alone (net : Net ι) (A : ι → Prop) (w w' : World ι) : Prop :=
  ReflTransGen (Run.StepWhere (step net) fun x e => ∃ n, e.node? net x = some n ∧ A n) w w'

variable {net : Net ι} {ids : ι → String} {indirectPingCount : ι → ℕ} {side : ι → ℕ} {s : ℕ}
  {w x x' y y' : World ι} {e : Event ι} {d n : ι} {target : Member} {seq : ℤ}

theorem Split.steps (h : Split net side w x) : Steps net w x :=
  ReflTransGen.mono (fun _ _ h => h.step) _ _ h

theorem Alone.without {A : ι → Prop} (h : Alone net A w x) (hd : ¬ A d) : Without net d w x := by
  refine ReflTransGen.mono (fun y y' ⟨e, ⟨n, hn, hA⟩, he⟩ => ⟨e, fun heq => hd ?_, he⟩) _ _ h
  rwa [← Option.some.inj (hn.symm.trans heq)]

/-! ### One side -/

/-- On side `s`, the second world is as the first one, in what its nodes are and have done, and it
has all that was there before the split. -/
structure Mirrors (side : ι → ℕ) (s : ℕ) (w x y : World ι) : Prop where
  procs : ∀ n, side n = s → y.procs n = x.procs n
  deeds : ∀ n, side n = s → own n y.log = own n x.log
  log : w.log ⊆ y.log

/-- What a node of another side does is not seen here. -/
theorem Mirrors.elsewhere (h : Mirrors side s w x y) (hn : side n ≠ s) {e : Proc.Event}
    (hs : x.act n e = some x') : Mirrors side s w x' y := by
  obtain ⟨acts, -, hlog, hother⟩ := next_of_act hs
  have hne : ∀ k, side k = s → k ≠ n := by
    rintro k hk rfl
    exact hn hk
  refine ⟨fun k hk => ?_, fun k hk => ?_, h.log⟩
  · rw [hother k (hne k hk)]
    exact h.procs k hk
  · rw [hlog, own_append, own_map_ne (hne k hk).symm, List.append_nil]
    exact h.deeds k hk

/-- A node of this side can do in one world what it does in the other. -/
theorem Mirrors.act (h : Mirrors side s w x y) (hn : side n = s) {e : Proc.Event}
    (hs : x.act n e = some x') : ∃ y', y.act n e = some y' ∧ Mirrors side s w x' y' := by
  obtain ⟨⟨p, acts⟩, hnext, hs⟩ := Option.bind_eq_some_iff.mp hs
  obtain rfl := Option.some.inj hs
  refine ⟨⟨update y.procs n p, y.log ++ acts.map (n, ·)⟩, ?_, fun k hk => ?_, fun k hk => ?_,
    fun a ha => List.mem_append_left _ (h.log ha)⟩
  · rw [World.act, h.procs n hn, hnext]
    rfl
  · by_cases hkn : k = n
    · subst hkn
      simp
    · simp only [Function.update_of_ne hkn]
      exact h.procs k hk
  · rw [own_append, own_append, h.deeds k hk]

theorem Mirrors.step (h : Mirrors side s w x y) (hs : x.step net e = some x')
    (he : ¬ x.Crosses net side w.log.length e) (hlog : w.log <+: x.log) :
    ∃ y', Alone net (side · = s) y y' ∧ Mirrors side s w x' y' := by
  cases e with
  | act n e =>
    have hact : x.act n e = some x' := by
      cases e with
      | handle msg => cases hs
      | restart addr => exact (Option.ite_none_right_eq_some.mp hs).2
      | _ => exact hs
    by_cases hn : side n = s
    swap
    · exact ⟨y, .refl, h.elsewhere hn hact⟩
    obtain ⟨y', hy', h'⟩ := h.act hn hact
    refine ⟨y', .single ⟨.act n e, ⟨n, rfl, hn⟩, ?_⟩, h'⟩
    cases e with
    | handle msg => cases hs
    | restart addr => exact (if_pos (Option.ite_none_right_eq_some.mp hs).1).trans hy'
    | _ => exact hy'
  | deliver i =>
    obtain ⟨⟨m, act⟩, hi, hs⟩ := Option.bind_eq_some_iff.mp hs
    obtain ⟨⟨dest, msg⟩, hsent, hs⟩ := Option.bind_eq_some_iff.mp hs
    obtain ⟨n, hat, hact⟩ := Option.bind_eq_some_iff.mp hs
    by_cases hn : side n = s
    swap
    · exact ⟨y, .refl, h.elsewhere hn hact⟩
    -- the datagram has been sent in the other world too
    have hmem : (m, act) ∈ y.log := by
      by_cases hold : i < w.log.length
      · obtain ⟨rest, hrest⟩ := hlog
        rw [← hrest, List.getElem?_append_left hold] at hi
        exact h.log (List.mem_of_getElem? hi)
      · have hm : side m = s := by
          rw [← hn]
          by_contra hne
          exact he ⟨not_lt.mp hold, (m, act), hi, n, by simp [Event.node?, hi, hsent, hat], hne⟩
        rw [← mem_own, h.deeds m hm, mem_own]
        exact List.mem_of_getElem? hi
    obtain ⟨j, hj⟩ := List.getElem?_of_mem hmem
    obtain ⟨y', hy', h'⟩ := h.act hn hact
    refine ⟨y', .single ⟨.deliver j, ⟨n, by simp [Event.node?, hj, hsent, hat], hn⟩, ?_⟩, h'⟩
    simp [World.step, hj, hsent, hat, hy']

theorem Split.alone (h : Split net side w x) (s : ℕ) :
    ∃ y, Alone net (side · = s) w y ∧ Mirrors side s w x y := by
  suffices key : w.log <+: x.log ∧ ∃ y, Alone net (side · = s) w y ∧ Mirrors side s w x y from key.2
  refine Run.invariant (P := fun x => w.log <+: x.log ∧
    ∃ y, Alone net (side · = s) w y ∧ Mirrors side s w x y) ?_ h
    ⟨List.prefix_refl _, w, .refl, fun _ _ => rfl, fun _ _ => rfl, fun _ ha => ha⟩
  rintro x x' ⟨e, hne, he⟩ ⟨hlog, y, hy, hmirrors⟩
  obtain ⟨_, _, acts, -, hlog', -⟩ := exists_next he
  obtain ⟨y', hy', h'⟩ := hmirrors.step he hne hlog
  exact ⟨hlog.trans (hlog' ▸ List.prefix_append _ _), y', hy.trans hy', h'⟩

/-- **Sides go on alone.**  Let a partition begin at any moment, whatever is under way then and may
still arrive.  As long as nothing is sent across it, all that the nodes of one side become and do
they could become and do, in the same order, in a run in which nobody else takes a step. -/
theorem sides_go_on_alone (h : Split net side w x) (s : ℕ) : ∃ y, Alone net (side · = s) w y ∧
    ∀ n, side n = s → y.procs n = x.procs n ∧ own n y.log = own n x.log :=
  let ⟨y, hy, hmirrors⟩ := h.alone s
  ⟨y, hy, fun n hn => ⟨hmirrors.procs n hn, hmirrors.deeds n hn⟩⟩

/-- `a` and `b` are on different sides. -/
def pairSides : Bool → ℕ := fun n => if n then 0 else 1

/-- Each pings the other. -/
def pairPings : List (Event Bool) := [.act false (.probe 0), .act true (.probe 0)]

theorem pairPings_runs : (Run.execWhere (step pair) (fun x e =>
    ¬ x.Crosses pair pairSides pairUp.log.length e) pairUp pairPings).isSome = true := by
  decide +kernel

def pairSplit : World Bool := (Run.execWhere (step pair)
  (fun x e => ¬ x.Crosses pair pairSides pairUp.log.length e) pairUp pairPings).get pairPings_runs

theorem pairSplit_split : Split pair pairSides pairUp pairSplit :=
  Run.stepsWhere_get pairPings_runs

theorem sides_go_on_alone_pair : ∃ y, Alone pair (pairSides · = 0) pairUp y ∧
    y.procs true = pairSplit.procs true := by
  obtain ⟨y, hy, hside⟩ := sides_go_on_alone pairSplit_split 0
  exact ⟨y, hy, (hside true rfl).1⟩

/-! ### Probes across the partition -/

/-- **A partition is noticed.**  Let a partition begin at any moment of a run, whatever is under way
then and may still arrive.  As long as nothing is sent across it, a probe that a node begins of one
on another side can only end with a mark, whatever both sides go on with: when it has ended, that
node does not have its target `ALIVE` on record. -/
theorem split_is_noticed (hid : ∀ k, ids k = ids d → k = d)
    (hw : Steps net (init net ids indirectPingCount) w) (hsplit : Split net side w x)
    (hside : side n ≠ side d) {e : Proc.Event} (hs : x.step net (.act n e) = some x')
    (hends : (x.procs n).Ends e seq target) (htarget : target.id = ids d)
    (hnew : (w.procs n).seqNo < seq) :
    ∀ c, (x'.procs n).node.members.get? (ids d) = some c → c.state ≠ .alive := by
  have hx := known_steps (hw.trans hsplit.steps)
  obtain ⟨acts, hnext, hlog, -⟩ := next_of_step hs
  rcases hends.answered_or_marked hnext with hanswered | hmark
  · -- the node could get the same answer while its target is down
    have hsplit' : Split net side w x' := hsplit.tail ⟨.act n e, id, hs⟩
    obtain ⟨y, hy, hmirrors⟩ := hsplit'.alone (side n)
    have hdown : Without net d w y := hy.without (Ne.symm hside)
    have hmem : (n, Act.answered seq target) ∈ y.log := by
      rw [← mem_own, hmirrors.deeds n rfl, hlog, own_append, own_map_self]
      exact List.mem_append_right _ hanswered
    have hle := hdown.since.probe_answered (known_steps hw) (known_steps (hw.trans hdown.steps)) hid
      hmem htarget
    exact absurd hnew (not_lt.mpr hle)
  · intro c hc
    rw [hmark, ← htarget] at hc
    exact Node.state_mark_ne_alive (hx.own n).keyed hc

theorem split_is_noticed_pair : ∃ x, pairSplit.step pair (.act true (.timedOut 0 [])) = some x ∧
    ∀ c, (x.procs true).node.members.get? (pairIds false) = some c → c.state ≠ .alive := by
  have hsome : (pairSplit.step pair (.act true (.timedOut 0 []))).isSome = true := by
    decide +kernel
  have hwait : (pairSplit.procs true).requests[0]?.map
      (fun q => (q.caller, q.msg.seq)) = some (.probe [⟨"b", "b:7946", .alive, 0⟩]
        ⟨"b", "b:7946", .alive, 0⟩, (pairUp.procs true).seqNo + 1) := by
    decide +kernel
  obtain ⟨x, hx⟩ := Option.isSome_iff_exists.mp hsome
  obtain ⟨q, hq, hfor⟩ := Option.map_eq_some_iff.mp hwait
  obtain ⟨hcaller, hseq⟩ := Prod.mk.inj hfor
  have hw : Steps pair (init pair pairIds fun _ => 2) pairUp := Run.steps_get pairJoin_runs
  exact ⟨x, hx, split_is_noticed pairIds_unique hw pairSplit_split (by decide) hx
    (.alone hq hcaller) rfl (hseq ▸ Int.lt_succ (pairUp.procs true).seqNo)⟩

end World

end Swim
