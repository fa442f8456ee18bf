/-
The records that go round in a SWIM network (`swim.py`), and where they come from.

* `Node.Has` — the records of a node, in its list or still to be gossiped; `Proc.Coins` —
  those that a step makes up itself, and `Proc.coins_next`, that it makes up no others;
* `World.Rumor` — the records of all nodes and all datagrams, and `World.Rumor.step`;
* **`World.records_are_members`** — every record is about a node of the network, with its
  address, and is newer than that node only by what others have revived it;
* **`World.verdicts_are_earned`** — behind every `SUSPECT` record is a probe that failed,
  and behind every `DEAD` one a suspicion that such a probe raised and whose timer ran out.
-/
import Dssd.SwimAcks
import Dssd.SwimRefute

namespace Swim

namespace Node

variable {r r' : Node} {id : String} {m u : Member} {updates : List Member}

/-- `members()` -/
def listed (r : Node) : List Member := r.me :: r.members.values

/-- The records of a node. -/
def Has (r : Node) (m : Member) : Prop :=
  m ∈ r.members.values ∨ m ∈ r.broadcasts.values.map Prod.fst

/-- What a node says of itself, or has said before. -/
structure Avows (r : Node) (m : Member) : Prop where
  id : m.id = r.id
  addr : m.addr = r.addr
  state : m.state = .alive
  incarnation : m.incarnation ≤ r.incarnation

theorem avows_me (r : Node) : r.Avows r.me := ⟨rfl, rfl, rfl, le_refl _⟩

theorem has_of_get? (h : r.members.get? id = some m) : r.Has m :=
  .inl (Dict.mem_values.mpr ⟨id, h⟩)

/-! ### What the methods of a node make of its records -/

theorem Has.set (h : (r.set u).Has m) : r.Has m ∨ m = u := by
  rcases h with h | h
  · rcases mem_values_set h with rfl | h
    · exact .inr rfl
    · exact .inl (.inl h)
  · obtain ⟨e, he, rfl⟩ := List.mem_map.mp h
    rcases mem_values_set he with rfl | he
    · exact .inr rfl
    · exact .inl (.inr (List.mem_map_of_mem he))

theorem Has.merge (h : (r.merge u).Has m) : r.Has m ∨ m = u ∨ (r.merge u).Avows m := by
  by_cases hid : u.id = r.id
  · rw [Node.merge, if_pos hid] at h ⊢
    split at h
    · rename_i hrumor
      rw [if_pos hrumor]
      rcases h with h | h
      · exact .inl (.inl h)
      · obtain ⟨e, he, rfl⟩ := List.mem_map.mp h
        rcases mem_values_set he with rfl | he
        · exact .inr (.inr ⟨rfl, rfl, rfl, le_refl _⟩)
        · exact .inl (.inr (List.mem_map_of_mem he))
    · exact .inl h
  · rw [Node.merge, if_neg hid] at h
    split at h
    · split at h
      · exact h.set.imp_right .inl
      · exact .inl h
    · split at h
      · exact h.set.imp_right .inl
      · exact .inl h

theorem Avows.mergeAll (h : r.Avows m) (ho : r.Own) (updates : List Member) :
    (r.mergeAll updates).Avows m where
  id := h.id.trans (ho.run (r.moves_mergeAll updates)).2.1.symm
  addr := h.addr.trans (r.addr_mergeAll updates).symm
  state := h.state
  incarnation := h.incarnation.trans (ho.run (r.moves_mergeAll updates)).2.2

theorem Has.mergeAll (h : (r.mergeAll updates).Has m) (ho : r.Own) :
    r.Has m ∨ m ∈ updates ∨ (r.mergeAll updates).Avows m := by
  induction updates generalizing r with
  | nil => exact .inl h
  | cons u updates ih =>
    have ho' := ho.merge u
    rcases ih h ho' with h | h | h
    · rcases h.merge with h | rfl | h
      · exact .inl h
      · exact .inr (.inl List.mem_cons_self)
      · exact .inr (.inr (h.mergeAll ho' updates))
    · exact .inr (.inl (List.mem_cons_of_mem _ h))
    · exact .inr (.inr h)

/-- The updates of a message are taken from the buffer. -/
theorem has_of_mem_takeBroadcasts (h : m ∈ r.takeBroadcasts.1) : r.Has m := by
  rw [takeBroadcasts_fst] at h
  obtain ⟨e, he, rfl⟩ := List.mem_map.mp h
  exact .inr (List.mem_map_of_mem (Quota.mem_of_mem_due he))

theorem Has.takeBroadcasts (h : r.takeBroadcasts.2.Has m) (ho : r.Own) : r.Has m := by
  rcases h with h | h
  · exact .inl h
  · obtain ⟨e, he, rfl⟩ := List.mem_map.mp h
    rw [values_takeBroadcasts ho.buffered, Quota.round, List.mem_filterMap] at he
    obtain ⟨e', he', hround⟩ := he
    have hkey : e.1 = e'.1 := Quota.round_key hround
    rw [hkey]
    exact .inr (List.mem_map_of_mem he')

theorem Has.mark {new_state from_state : State} {incarnation : Option ℤ}
    (h : (r.mark id new_state from_state incarnation).Has m) : r.Has m ∨
    ∃ c, r.members.get? id = some c ∧ c.state = from_state ∧
      m = ⟨c.id, c.addr, new_state, c.incarnation⟩ := by
  rcases r.mark_cases id new_state from_state incarnation with heq | ⟨c, hc, hs, heq⟩
  · exact .inl (heq ▸ h)
  · rw [heq] at h
    exact h.set.imp_right fun h => ⟨c, hc, hs, h⟩

theorem Has.suspicionTimer {k : ℕ} (h : (r.suspicionTimer k).Has m) : r.Has m ∨
    ∃ id c, r.members.get? id = some c ∧ c.state = .suspect ∧
      m = ⟨c.id, c.addr, .dead, c.incarnation⟩ := by
  unfold Node.suspicionTimer at h
  split at h
  · exact .inl h
  · rename_i t _
    rcases Has.mark h with h | ⟨c, hc, hs, rfl⟩
    · exact .inl h
    · exact .inr ⟨t.id, c, hc, hs, rfl⟩

theorem Has.resurrect (h : (r.resurrect id).Has m) : r.Has m ∨
    ∃ c, r.members.get? id = some c ∧ c.state = .dead ∧
      m = ⟨c.id, c.addr, .alive, c.incarnation + 1⟩ := by
  unfold Node.resurrect at h
  split at h
  · exact .inl h
  · rename_i c hc
    split at h
    · rename_i hs
      exact h.set.imp_right fun h => ⟨c, hc, hs, h⟩
    · exact .inl h

/-- A node lists itself, and every other member once. -/
theorem Own.nodup_listed (h : r.Own) : (r.listed.map Member.id).Nodup := by
  have hkeys : r.members.values.map Member.id = r.members.items.map Prod.fst := by
    rw [Dict.values, List.map_map]
    exact List.map_congr_left fun x hx => h.keyed x.1 x.2 (Dict.get?_eq_some_iff.mpr hx)
  refine List.nodup_cons.mpr ⟨fun hmem => ?_, hkeys ▸ r.members.nodup⟩
  obtain ⟨m, hm, hid⟩ := List.mem_map.mp hmem
  obtain ⟨k, hk⟩ := Dict.mem_values.mp hm
  exact h.ne hk hid

end Node

namespace Proc

variable {p p' q : Proc} {e : Event} {acts : List Act} {caller : Caller} {m : Member}
  {dest addr targetAddr : String} {type : MsgType} {updates : List Member} {msg : Message}

/-- The event ends a probe of this member that neither it nor a helper has answered. -/
def ProbeFails (p : Proc) (e : Event) (id : String) : Prop :=
  (∃ i q candidates target, e = .timedOut i [] ∧ p.requests[i]? = some q ∧
      q.caller = .probe candidates target ∧ target.id = id) ∨
    ∃ i pr, e = .gathered i ∧ p.probes[i]? = some pr ∧ pr.pending = 0 ∧ pr.acked = false ∧
      pr.target.id = id

/-- The records that a step makes up itself. -/
inductive Coins (p : Proc) (e : Event) (p' : Proc) (acts : List Act) : Member → Prop
  | own {m : Member} (avows : p'.node.Avows m) : Coins p e p' acts m
  | suspect {c : Member} (record : p.node.members.get? c.id = some c) (state : c.state = .alive)
      (fails : p.ProbeFails e c.id) : Coins p e p' acts { c with state := .suspect }
  | dead {c : Member} {k : ℕ} (record : p.node.members.get? c.id = some c)
      (state : c.state = .suspect) (timer : e = .suspicionTimer k) :
      Coins p e p' acts { c with state := .dead }
  | revived {c target : Member} {addr : String} {msg : Message}
      (record : p.node.members.get? c.id = some c) (state : c.state = .dead)
      (returned : .returned (.resurrect target) addr msg true ∈ acts) (id : target.id = c.id) :
      Coins p e p' acts { c with state := .alive, incarnation := c.incarnation + 1 }

/-- A record of the node, or of a message that it sends. -/
def Spoken (p : Proc) (acts : List Act) (m : Member) : Prop :=
  p.node.Has m ∨ ∃ act ∈ acts, ∃ dest msg, act.sent = some (dest, msg) ∧ m ∈ msg.gossip

theorem Spoken.silent (h : p.Spoken acts m) (hs : ∀ act ∈ acts, act.sent = none) :
    p.node.Has m := by
  refine h.resolve_right ?_
  rintro ⟨act, ha, dest, msg, hsent, -⟩
  rw [hs act ha] at hsent
  cases hsent

/-- A request has nothing new but what the node says of itself. -/
theorem Spoken.request (h : (p.request caller addr type updates targetAddr).1.Spoken
    (p.request caller addr type updates targetAddr).2 m) :
    p.node.Has m ∨ m ∈ updates ∨ p.node.Avows m := by
  rcases h with h | ⟨act, ha, dest, msg, hsent, hm⟩
  · rw [node_request] at h
    exact .inl h
  · rw [mem_request ha] at hsent
    obtain ⟨-, rfl⟩ := Prod.mk.inj (Option.some.inj hsent)
    rcases List.mem_cons.mp hm with rfl | hm
    · exact .inr (.inr p.node.avows_me)
    · exact .inr (.inl hm)

theorem Spoken.reply {act : Act} (h : p.Spoken (act :: (p.reply addr msg).2) m)
    (hact : act.sent = none) (hm : msg.sender = p.node.me) :
    p.node.Has m ∨ m ∈ msg.updates ∨ p.node.Avows m := by
  rcases h with h | ⟨act', ha, dest, msg', hsent, hmem⟩
  · exact .inl h
  · rcases List.mem_cons.mp ha with rfl | ha
    · rw [hact] at hsent
      cases hsent
    · rw [mem_reply ha] at hsent
      obtain ⟨-, rfl⟩ := Prod.mk.inj (Option.some.inj hsent)
      rcases List.mem_cons.mp hmem with rfl | hmem
      · exact .inr (.inr (hm ▸ p.node.avows_me))
      · exact .inr (.inl hmem)

/-- A failed probe. -/
theorem coins_mark {id : String} (hk : p.node.Keyed) (hf : p.ProbeFails e id)
    (h : (p.node.mark id .suspect .alive none).Has m) : p.node.Has m ∨ p.Coins e p' acts m := by
  rcases h.mark with h | ⟨c, hc, hs, rfl⟩
  · exact .inl h
  · obtain rfl := hk id c hc
    exact .inr (.suspect hc hs hf)

/-- **Where records come from.**  What a node has or sends after a step is what it had before, what
it has been sent, what it says of itself, or a verdict of its own. -/
theorem coins_next (ho : p.node.Own) {s : Proc × List Act} (h : p.next e = some s)
    (hm : s.1.Spoken s.2 m) : p.node.Has m ∨ (∃ msg, e = .handle msg ∧ m ∈ msg.gossip) ∨
      p.Coins e s.1 s.2 m := by
  cases moves h with
  | join | resurrect =>
    rcases hm.request with h | h | h
    · exact .inl h
    · cases h
    · refine .inr (.inr (.own ?_))
      rwa [node_request]
  | ask | relay =>
    rcases Spoken.request (p := { p with ready := _ }) hm with h | h | h
    · exact .inl h
    · cases h
    · refine .inr (.inr (.own ?_))
      rwa [node_request]
  | probe =>
    rcases Spoken.request (p := { p with node := _ }) hm with h | h | h
    · exact .inl (h.takeBroadcasts ho)
    · exact .inl (Node.has_of_mem_takeBroadcasts h)
    · refine .inr (.inr (.own ?_))
      rwa [node_request]
  | @acked i q =>
    obtain ⟨caller, addr, msg, done⟩ := q
    cases caller with
    | join | ask | probe => exact .inl (hm.silent (by simp [Act.sent, Proc.acked]))
    | relay req =>
      rcases Spoken.reply (p := { p with requests := _ }) hm rfl rfl with h | h | h
      · exact .inl h
      · cases h
      · exact .inr (.inr (.own h))
    | resurrect target =>
      have hhas := hm.silent (by simp [Act.sent, Proc.acked])
      rcases Node.Has.resurrect hhas with h | ⟨c, hc, hs, rfl⟩
      · exact .inl h
      · have hid := ho.keyed _ _ hc
        exact .inr (.inr (.revived (hid ▸ hc) hs List.mem_cons_self hid.symm))
  | @timedOut i sample q p' hq hp' =>
    have hhas := hm.silent (by simp [Act.sent])
    obtain ⟨caller, addr, msg, done⟩ := q
    cases caller with
    | probe candidates target =>
      obtain ⟨-, hp'⟩ := Option.ite_none_right_eq_some.mp hp'
      split at hp'
      · rename_i hsample
        obtain rfl := Option.some.inj hp'
        subst hsample
        have hf : p.ProbeFails (.timedOut i []) target.id :=
          .inl ⟨i, _, candidates, target, rfl, hq, rfl, rfl⟩
        exact (coins_mark ho.keyed hf hhas).imp_right .inr
      · obtain rfl := Option.some.inj hp'
        exact .inl hhas
    | join | ask | relay | resurrect =>
      obtain rfl := Option.some.inj hp'
      exact .inl hhas
  | answered => exact .inl (hm.silent (by simp [Act.sent]))
  | @unanswered i pr hpr hpending hacked =>
    have hf : p.ProbeFails (.gathered i) pr.target.id :=
      .inr ⟨i, pr, rfl, hpr, hpending, Bool.eq_false_iff.mpr hacked, rfl⟩
    exact (coins_mark ho.keyed hf (hm.silent (by simp))).imp_right .inr
  | @suspicionTimer k =>
    rcases Node.Has.suspicionTimer (hm.silent (by simp)) with h | ⟨id, c, hc, hs, rfl⟩
    · exact .inl h
    · obtain rfl := ho.keyed id c hc
      exact .inr (.inr (.dead hc hs rfl))
  | handle msg =>
    -- whatever the message asks for, its gossip is merged first
    have hmerged : (p.node.mergeAll msg.gossip).Has m → p.node.Has m ∨
        (∃ msg', Event.handle msg = .handle msg' ∧ m ∈ msg'.gossip) ∨
          (p.node.mergeAll msg.gossip).Avows m := fun h =>
      (h.mergeAll ho).imp_right (Or.imp_left fun h => ⟨msg, rfl, h⟩)
    have hown := (ho.run (p.node.moves_mergeAll msg.gossip)).1
    obtain ⟨type, seq, sender, targetAddr, updates⟩ := msg
    cases type with
    | ping =>
      rcases Spoken.reply (p := { p with node := _ }) hm rfl rfl with h | h | h
      · exact (hmerged (h.takeBroadcasts hown)).imp_right
          (Or.imp_right fun h => .own ⟨h.id, h.addr, h.state, h.incarnation⟩)
      · exact (hmerged (Node.has_of_mem_takeBroadcasts h)).imp_right
          (Or.imp_right fun h => .own ⟨h.id, h.addr, h.state, h.incarnation⟩)
      · exact .inr (.inr (.own h))
    | join =>
      rcases Spoken.reply (p := { p with node := _ }) hm rfl rfl with h | h | h
      · exact (hmerged h).imp_right (Or.imp_right .own)
      · exact (hmerged (.inl h)).imp_right (Or.imp_right .own)
      · exact .inr (.inr (.own h))
    | pingReq | ack | joinAck =>
      exact (hmerged (hm.silent (by simp [Act.sent, Proc.handle]))).imp_right (Or.imp_right .own)
  | restart addr => exact .inl (hm.silent (by simp))

end Proc

/-- An ack that revives this member. -/
def Act.revives (id : String) : Act → Bool
  | .returned (.resurrect target) _ _ true => target.id = id
  | _ => false

namespace World

open Function (update)
open Relation (ReflTransGen)

variable {ι : Type} [DecidableEq ι]

def Steps (net : Net ι) (w w' : World ι) : Prop := ReflTransGen (Run.Step (World.step net)) w w'

/-- A record of some node, or of some datagram that has been sent. -/
def Rumor (w : World ι) (m : Member) : Prop :=
  (∃ n, (w.procs n).node.Has m) ∨
    ∃ n act dest msg, (n, act) ∈ w.log ∧ act.sent = some (dest, msg) ∧ m ∈ msg.gossip

/-- How many times a node has revived this member. -/
def revivals (w : World ι) (id : String) : ℕ := w.log.countP fun x => x.2.revives id

/-- The node that takes the step. -/
def Event.node? (net : Net ι) (w : World ι) : Event ι → Option ι
  | .act n _ => some n
  | .deliver k => do
    let (dest, _) ← (← w.log[k]?).2.sent
    net.at? dest

/-- The nodes are who they are, and where they are. -/
structure Peopled (net : Net ι) (ids : ι → String) (w : World ι) : Prop extends Sound net w where
  id : ∀ n, (w.procs n).node.id = ids n
  own : ∀ n, (w.procs n).node.Own

variable {net : Net ι} {ids : ι → String} {w w' start : World ι} {e : Event ι} {m : Member} {n : ι}

theorem peopled_init (net : Net ι) (ids : ι → String) (indirectPingCount : ι → ℕ) :
    (init net ids indirectPingCount).Peopled net ids where
  toSound := sound_init net ids indirectPingCount
  id _ := rfl
  own n := Node.own_fresh (ids n) (net.addr n)

theorem next_of_act {e : Proc.Event} (h : w.act n e = some w') : ∃ acts,
    (w.procs n).next e = some (w'.procs n, acts) ∧ w'.log = w.log ++ acts.map (n, ·) ∧
      ∀ k ≠ n, w'.procs k = w.procs k := by
  obtain ⟨⟨p, acts⟩, hnext, h⟩ := Option.bind_eq_some_iff.mp h
  obtain rfl := Option.some.inj h
  refine ⟨acts, ?_, rfl, fun k hk => Function.update_of_ne hk _ _⟩
  show _ = some (update w.procs n p n, acts)
  rw [Function.update_self]
  exact hnext

/-- A step that a node takes of its own. -/
theorem next_of_step {e : Proc.Event} (hs : w.step net (.act n e) = some w') : ∃ acts,
    (w.procs n).next e = some (w'.procs n, acts) ∧ w'.log = w.log ++ acts.map (n, ·) ∧
      ∀ k ≠ n, w'.procs k = w.procs k := by
  refine next_of_act ?_
  cases e with
  | handle msg => cases hs
  | restart addr => exact (Option.ite_none_right_eq_some.mp hs).2
  | _ => exact hs

/-- A step of the network is a step of one node. -/
theorem exists_next (hs : w.step net e = some w') : ∃ n e' acts,
    (w.procs n).next e' = some (w'.procs n, acts) ∧ w'.log = w.log ++ acts.map (n, ·) ∧
      (∀ k ≠ n, w'.procs k = w.procs k) ∧
      (e = .act n e' ∨ ∃ msg, e' = .handle msg ∧ Arrived net w.log (n, .handled msg)) ∧
      e.node? net w = some n := by
  cases e with
  | act n e =>
    obtain ⟨acts, h⟩ := next_of_step hs
    exact ⟨n, e, acts, h.1, h.2.1, h.2.2, .inl rfl, rfl⟩
  | deliver k =>
    obtain ⟨⟨j, act⟩, hk, hs⟩ := Option.bind_eq_some_iff.mp hs
    obtain ⟨⟨dest, msg⟩, hsent, hs⟩ := Option.bind_eq_some_iff.mp hs
    obtain ⟨n, hat, hs⟩ := Option.bind_eq_some_iff.mp hs
    obtain ⟨acts, h⟩ := next_of_act hs
    refine ⟨n, .handle msg, acts, h.1, h.2.1, h.2.2,
      .inr ⟨msg, rfl, j, act, dest, List.mem_of_getElem? hk, hsent, hat⟩, ?_⟩
    simp [Event.node?, hk, hsent, hat]

/-- What a step does to the numbers of the nodes. -/
theorem Peopled.step (h : w.Peopled net ids) (hs : w.step net e = some w') :
    w'.Peopled net ids ∧ (∀ n, (w.procs n).node.incarnation ≤ (w'.procs n).node.incarnation) ∧
      ∀ id, w.revivals id ≤ w'.revivals id := by
  obtain ⟨n, e', acts, hnext, hlog, hother, -⟩ := exists_next hs
  obtain ⟨hown, hid, hinc⟩ := (h.own n).run (Proc.spreads_next hnext).moves
  refine ⟨⟨h.toSound.step hs, fun k => ?_, fun k => ?_⟩, fun k => ?_, fun id => ?_⟩
  · by_cases hk : k = n
    · exact hk ▸ hid.trans (h.id n)
    · rw [hother k hk]
      exact h.id k
  · by_cases hk : k = n
    · exact hk ▸ hown
    · rw [hother k hk]
      exact h.own k
  · by_cases hk : k = n
    · exact hk ▸ hinc
    · rw [hother k hk]
  · rw [revivals, revivals, hlog]
    exact (List.sublist_append_left _ _).countP_le

/-- **Where rumors come from**: from a node that makes them up. -/
theorem Rumor.step (hm : w'.Rumor m) (h : w.Peopled net ids) (hs : w.step net e = some w') :
    w.Rumor m ∨ ∃ n e' acts, w'.log = w.log ++ acts.map (n, ·) ∧
      (e = .act n e' ∨ ∃ msg, e' = .handle msg) ∧ e.node? net w = some n ∧
      (w.procs n).next e' = some (w'.procs n, acts) ∧
      (w.procs n).Coins e' (w'.procs n) acts m := by
  obtain ⟨n, e', acts, hnext, hlog, hother, he, hnode⟩ := exists_next hs
  have hspoken : w.Rumor m ∨ (w'.procs n).Spoken acts m := by
    rcases hm with ⟨k, hk⟩ | ⟨k, act, dest, msg, hmem, hsent, hm⟩
    · by_cases hkn : k = n
      · exact .inr (.inl (hkn ▸ hk))
      · rw [hother k hkn] at hk
        exact .inl (.inl ⟨k, hk⟩)
    · rw [hlog] at hmem
      rcases List.mem_append.mp hmem with hmem | hmem
      · exact .inl (.inr ⟨k, act, dest, msg, hmem, hsent, hm⟩)
      · obtain ⟨act', hact, heq⟩ := List.mem_map.mp hmem
        cases heq
        exact .inr (.inr ⟨act, hact, dest, msg, hsent, hm⟩)
  rcases hspoken with hr | hspoken
  · exact .inl hr
  · rcases Proc.coins_next (h.own n) hnext hspoken with hhas | ⟨msg, rfl, hmem⟩ | hcoins
    · exact .inl (.inl ⟨n, hhas⟩)
    · -- it was in a datagram
      rcases he with rfl | ⟨msg', heq, k, act, dest, hmem', hsent, -⟩
      · cases hs
      · cases heq
        exact .inl (.inr ⟨k, act, dest, msg, hmem', hsent, hmem⟩)
    · exact .inr ⟨n, e', acts, hlog, he.imp_right fun ⟨msg, heq, _⟩ => ⟨msg, heq⟩, hnode, hnext,
        hcoins⟩

/-! ### Who records are about -/

/-- The record is about a node, and no newer than its own number and the times it was revived. -/
def Real (net : Net ι) (ids : ι → String) (w : World ι) (m : Member) : Prop :=
  ∃ n, ids n = m.id ∧ net.addr n = m.addr ∧
    m.incarnation ≤ (w.procs n).node.incarnation + w.revivals m.id

theorem real_step (h : w.Peopled net ids) (hr : ∀ m, w.Rumor m → w.Real net ids m)
    (hs : w.step net e = some w') (hm : w'.Rumor m) : w'.Real net ids m := by
  obtain ⟨h', hinc, hrev⟩ := h.step hs
  have hlater : ∀ {c : Member}, w.Rumor c → w'.Real net ids c := by
    intro c hc
    obtain ⟨n, hid, haddr, hle⟩ := hr c hc
    refine ⟨n, hid, haddr, hle.trans ?_⟩
    have := hinc n
    have := hrev c.id
    omega
  rcases hm.step h hs with hm | ⟨n, e', acts, hlog, -, -, -, hcoins⟩
  · exact hlater hm
  cases hcoins with
  | own havows =>
    refine ⟨n, (h'.id n).symm.trans havows.id.symm,
      (h'.procs n).addr.symm.trans havows.addr.symm, ?_⟩
    have := havows.incarnation
    omega
  | @suspect c hc => exact hlater (c := c) (.inl ⟨n, Node.has_of_get? hc⟩)
  | @dead c _ hc => exact hlater (c := c) (.inl ⟨n, Node.has_of_get? hc⟩)
  | @revived c target addr msg hc hstate hret hid =>
    obtain ⟨k, hkid, haddr, hle⟩ := hr c (.inl ⟨n, Node.has_of_get? hc⟩)
    refine ⟨k, hkid, haddr, ?_⟩
    have hk := hinc k
    have hcount : w.revivals c.id + 1 ≤ w'.revivals c.id := by
      rw [revivals, revivals, hlog, List.countP_append]
      refine Nat.add_le_add_left (List.countP_pos_iff.mpr ?_) _
      exact ⟨(n, _), List.mem_map_of_mem hret, decide_eq_true hid⟩
    show c.incarnation + 1 ≤ (w'.procs k).node.incarnation + (w'.revivals c.id : ℤ)
    omega

/-- **Records are about members.**  In every run, every record in a list, in a buffer or in a
datagram is about a node of the network and has its address; its incarnation is at most the number
of that node itself and of the acks by which others have revived it.  And `members()` has no id
twice. -/
theorem records_are_members (net : Net ι) (ids : ι → String) (indirectPingCount : ι → ℕ)
    (es : List (Event ι)) : Run.Always (step net)
      (fun w => (∀ m, w.Rumor m → ∃ n, ids n = m.id ∧ net.addr n = m.addr ∧
          m.incarnation ≤ (w.procs n).node.incarnation + w.revivals m.id) ∧
        ∀ n, ((w.procs n).node.listed.map Member.id).Nodup)
      (init net ids indirectPingCount) es := by
  refine Run.always_of_inv
    (fun w e w' hs (h : w.Peopled net ids ∧ ∀ m, w.Rumor m → w.Real net ids m) =>
      (⟨(h.1.step hs).1, fun m hm => real_step h.1 h.2 hs hm⟩ :
        w'.Peopled net ids ∧ ∀ m, w'.Rumor m → w'.Real net ids m))
    (fun w h => ⟨h.2, fun n => (h.1.own n).nodup_listed⟩)
    ⟨peopled_init net ids indirectPingCount, fun m hm => ?_⟩ es
  rcases hm with ⟨n, h | h⟩ | ⟨n, act, dest, msg, h, -⟩
  · cases h
  · cases h
  · cases h

/-! ### What verdicts rest on -/

/-- A probe of the member has failed at a node that had it `ALIVE` with this incarnation, and the
run has gone on from there. -/
def Suspected (net : Net ι) (start : World ι) (m : Member) (w : World ι) : Prop :=
  ∃ n e w₀ w₁, Steps net start w₀ ∧ (w₀.procs n).ProbeFails e m.id ∧
    (w₀.procs n).node.members.get? m.id = some { m with state := .alive } ∧
    w₀.step net (.act n e) = some w₁ ∧ Steps net w₁ w

/-- After that, a suspicion timer has run out at a node that had it `SUSPECT` with this
incarnation. -/
def Condemned (net : Net ι) (start : World ι) (m : Member) (w : World ι) : Prop :=
  ∃ n k w₀ w₁, Steps net start w₀ ∧ Suspected net start m w₀ ∧
    (w₀.procs n).node.members.get? m.id = some { m with state := .suspect } ∧
    w₀.step net (.act n (.suspicionTimer k)) = some w₁ ∧ Steps net w₁ w

theorem Suspected.later (h : Suspected net start m w) (hs : Steps net w w') :
    Suspected net start m w' :=
  let ⟨n, e, w₀, w₁, h₀, hf, hm, he, h₁⟩ := h
  ⟨n, e, w₀, w₁, h₀, hf, hm, he, h₁.trans hs⟩

theorem Condemned.later (h : Condemned net start m w) (hs : Steps net w w') :
    Condemned net start m w' :=
  let ⟨n, k, w₀, w₁, h₀, hsus, hm, he, h₁⟩ := h
  ⟨n, k, w₀, w₁, h₀, hsus, hm, he, h₁.trans hs⟩

theorem Condemned.suspected (h : Condemned net start m w) : Suspected net start m w :=
  let ⟨_, _, _, _, _, hsus, _, he, h₁⟩ := h
  hsus.later (.head ⟨_, he⟩ h₁)

def Earns (net : Net ι) (start w : World ι) (m : Member) : Prop :=
  (m.state = .suspect → Suspected net start m w) ∧ (m.state = .dead → Condemned net start m w)

theorem earns_step (h : w.Peopled net ids) (hw : Steps net start w)
    (hr : ∀ m, w.Rumor m → Earns net start w m) (hs : w.step net e = some w') (hm : w'.Rumor m) :
    Earns net start w' m := by
  have hone : Steps net w w' := .single ⟨e, hs⟩
  rcases hm.step h hs with hm | ⟨n, e', acts, -, he, -, -, hcoins⟩
  · exact ⟨fun hm' => ((hr m hm).1 hm').later hone, fun hm' => ((hr m hm).2 hm').later hone⟩
  cases hcoins with
  | own havows =>
    rw [Earns, havows.state]
    exact ⟨nofun, nofun⟩
  | @suspect c hc hstate hfails =>
    refine ⟨fun _ => ?_, nofun⟩
    have he' : e = .act n e' := by
      refine he.resolve_right ?_
      rintro ⟨msg, rfl⟩
      rcases hfails with ⟨i, q, candidates, target, heq, -⟩ | ⟨i, pr, heq, -⟩
      · cases heq
      · cases heq
    have hc' : (w.procs n).node.members.get? c.id = some { c with state := .alive } := by
      rw [hc, ← hstate]
    exact ⟨n, e', w, w', hw, hfails, hc', he' ▸ hs, .refl⟩
  | @dead c k hc hstate hk =>
    refine ⟨nofun, fun _ => ?_⟩
    subst hk
    have he' : e = .act n (.suspicionTimer k) := he.resolve_right fun ⟨msg, heq⟩ => by cases heq
    have hc' : (w.procs n).node.members.get? c.id = some { c with state := .suspect } := by
      rw [hc, ← hstate]
    exact ⟨n, k, w, w', hw, (hr c (.inl ⟨n, Node.has_of_get? hc⟩)).1 hstate, hc', he' ▸ hs, .refl⟩
  | revived => exact ⟨nofun, nofun⟩

/-- **Verdicts are earned.**  In every run, behind every `SUSPECT` record, wherever it has got to,
is a probe that neither the member nor a helper has answered, of a node that had the member `ALIVE`
with the same incarnation.  Behind every `DEAD` record is such a suspicion, and after it the end of
the suspicion timer of a node that still had the member `SUSPECT`. -/
theorem verdicts_are_earned (net : Net ι) (ids : ι → String) (indirectPingCount : ι → ℕ)
    (es : List (Event ι)) : Run.Always (step net)
      (fun w => ∀ m, w.Rumor m →
        (m.state = .suspect → Suspected net (init net ids indirectPingCount) m w) ∧
          (m.state = .dead → Condemned net (init net ids indirectPingCount) m w))
      (init net ids indirectPingCount) es := by
  set start := init net ids indirectPingCount with hstart
  refine Run.always_of_inv
    (fun w e w' hs (h : w.Peopled net ids ∧ Steps net start w ∧
        ∀ m, w.Rumor m → Earns net start w m) =>
      (⟨(h.1.step hs).1, h.2.1.tail ⟨e, hs⟩, fun m hm => earns_step h.1 h.2.1 h.2.2 hs hm⟩ :
        w'.Peopled net ids ∧ Steps net start w' ∧ ∀ m, w'.Rumor m → Earns net start w' m))
    (fun w h => h.2.2) ⟨peopled_init net ids indirectPingCount, .refl, fun m hm => ?_⟩ es
  rcases hm with ⟨n, h | h⟩ | ⟨n, act, dest, msg, h, -⟩
  · cases h
  · cases h
  · cases h

end World

end Swim
