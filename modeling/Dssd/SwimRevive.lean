/-
Verdicts are undone (`Node._resurrect_once`, `Node._suspicion_timer`).

* `Node.Revocable` — a record that is `DEAD`, or `SUSPECT` with a timer that will make it so;
  `Node.get?_revive` — what the ack of a node makes of a `DEAD` record of it;
* `World.Among` — runs in which only some nodes take steps, and none is restarted;
* `World.exists_condemned`, `World.exists_revived` — the timer runs out, and the node that
  was convicted is pinged once more; `World.exists_undone` — so that one node takes it back;
* **`World.verdicts_can_be_undone`** — whatever has happened, all who have convicted a node
  that runs can find it `ALIVE` again, without anybody else.
-/
import Dssd.SwimCrash

open Addr (splitAddr)
open Function (update)
open Relation (ReflTransGen)

namespace Swim

namespace Node

variable {r : Node} {id : String} {c me : Member} {updates : List Member}

/-- The record is `DEAD`, or its timer will make it so. -/
def Revocable (r : Node) (m : Member) : Prop :=
  m.state = .dead ∨ m.state = .suspect ∧ r.Armed m

theorem incarnation_merge_of_ne {u : Member} (hid : u.id ≠ r.id) :
    (r.merge u).incarnation = r.incarnation := by
  unfold merge
  rw [if_neg hid]
  split
  · split <;> rfl
  · split <;> rfl

theorem get?_resurrect (hk : r.Keyed) (hc : r.members.get? id = some c) :
    (r.resurrect id).members.get? id =
      some (if c.state = .dead then ⟨c.id, c.addr, .alive, c.incarnation + 1⟩ else c) := by
  obtain rfl := hk id c hc
  unfold resurrect
  rw [hc]
  dsimp only
  split
  · exact r.get?_members_set ⟨c.id, c.addr, .alive, c.incarnation + 1⟩
  · exact hc

/-- The node is newer than the verdict, or the verdict is overruled. -/
theorem get?_revive (h : r.Own) (hc : r.members.get? id = some c) (hdead : c.state = .dead)
    (hid : me.id = id) (halive : me.state = .alive)
    (hold : ∀ x ∈ updates, x.id = id → x.state = .alive ∧ x.incarnation ≤ me.incarnation) :
    ∃ m, ((r.mergeAll (me :: updates)).resurrect id).members.get? id = some m ∧
      m.state = .alive ∧ m.incarnation = max me.incarnation (c.incarnation + 1) := by
  have hkeyed : (r.mergeAll (me :: updates)).Keyed := (h.run (r.moves_mergeAll _)).1.keyed
  by_cases hlt : c.incarnation < me.incarnation
  · subst hid
    have hne : me.id ≠ r.id := fun heq => by
      rw [heq, h.self] at hc
      cases hc
    have hme := get?_mergeAll_refuted hne hc halive hlt hold
    refine ⟨me, ?_, halive, by omega⟩
    rw [get?_resurrect hkeyed hme, if_neg (by simp [halive])]
  · rcases dead_mergeAll hc hdead (me :: updates) with hkeep | ⟨u, hu, huid, hnew⟩
    · refine ⟨_, get?_resurrect hkeyed hkeep, ?_⟩
      rw [if_pos hdead]
      exact ⟨rfl, by dsimp only; omega⟩
    · rcases List.mem_cons.mp hu with rfl | hu
      · exact absurd hnew hlt
      · have := (hold u hu huid).2
        omega

end Node

namespace Proc

variable {p : Proc} {c : Member} {i : ℕ}

theorem next_resurrect (hi : (p.node.members.values.filter fun m => m.state = .dead)[i]? = some c)
    (haddr : (splitAddr c.addr).isSome = true) : p.next (.resurrect i) =
      some ({ p with
          seqNo := p.seqNo + 1
          requests := p.requests ++
            [⟨.resurrect c, c.addr, ⟨.ping, p.seqNo + 1, p.node.me, "", []⟩, false⟩] },
        [.requested (.resurrect c) c.addr ⟨.ping, p.seqNo + 1, p.node.me, "", []⟩]) := by
  refine Option.bind_eq_some_iff.mpr ⟨c, hi, congrArg some ?_⟩
  rw [request]
  dsimp only
  rw [if_pos haddr]

theorem next_acked_resurrect {addr : String} {msg : Message}
    (hi : p.requests[i]? = some ⟨.resurrect c, addr, msg, true⟩) : p.next (.acked i) =
      some ({ p with node := p.node.resurrect c.id, requests := p.requests.eraseIdx i },
        [.returned (.resurrect c) addr msg true]) :=
  Option.bind_eq_some_iff.mpr ⟨_, hi, rfl⟩

theorem handle_ping (p : Proc) (seq : ℤ) {sender : Member} (targetAddr : String)
    (updates : List Member) (haddr : (splitAddr sender.addr).isSome = true) :
    p.handle ⟨.ping, seq, sender, targetAddr, updates⟩ =
      ({ p with node := (p.node.mergeAll (sender :: updates)).takeBroadcasts.2 },
        [.replied sender.addr ⟨.ack, seq,
          (p.node.mergeAll (sender :: updates)).takeBroadcasts.2.me, "",
          (p.node.mergeAll (sender :: updates)).takeBroadcasts.1⟩]) := by
  simp [handle, reply, haddr, Message.gossip]

end Proc

namespace World

variable {ι : Type} [DecidableEq ι] {net : Net ι} {ids : ι → String}
  {indirectPingCount : ι → ℕ} {w w' : World ι} {S : Finset ι} {d n k : ι} {c : Member}

/-- A run in which only these nodes take steps, and none is restarted. -/
def Among (net : Net ι) (S : Finset ι) (w w' : World ι) : Prop :=
  ReflTransGen (Run.StepWhere (step net) fun w e =>
    (∃ n ∈ S, e.node? net w = some n) ∧ ∀ n addr, e ≠ .act n (.restart addr)) w w'

/-- What a node can do, it does in the network. -/
theorem exists_act {e : Proc.Event} {p : Proc} {acts : List Act}
    (h : (w.procs n).next e = some (p, acts)) : ∃ w', w.act n e = some w' ∧ w'.procs n = p ∧
      (∀ k ≠ n, w'.procs k = w.procs k) ∧ w'.log = w.log ++ acts.map (n, ·) :=
  ⟨⟨update w.procs n p, w.log ++ acts.map (n, ·)⟩, Option.bind_eq_some_iff.mpr ⟨(p, acts), h, rfl⟩,
    Function.update_self _ _ _, fun _ hk => Function.update_of_ne hk _ _, rfl⟩

/-- What has just been sent arrives. -/
theorem exists_arrived (h : w.Known net ids) (hn : n ∈ S) {log : List (ι × Act)} {act : Act}
    {dest : String} {msg : Message} {p : Proc} {acts : List Act}
    (hlog : w.log = log ++ [(k, act)]) (hsent : act.sent = some (dest, msg))
    (hat : net.at? dest = some n) (hp : (w.procs n).handle msg = (p, acts)) :
    ∃ w', Among net S w w' ∧ w'.Known net ids ∧ w'.procs n = p ∧
      (∀ k ≠ n, w'.procs k = w.procs k) ∧
      w'.log = w.log ++ (.handled msg :: acts).map (n, ·) := by
  have hnext : (w.procs n).next (.handle msg) = some (p, .handled msg :: acts) := by
    rw [Proc.next, hp]
  obtain ⟨w', hact, hw'⟩ := exists_act hnext
  have hi : w.log[log.length]? = some (k, act) := hlog ▸ List.getElem?_concat_length
  have hstep : w.step net (.deliver log.length) = some w' := by
    refine Option.bind_eq_some_iff.mpr ⟨(k, act), hi, ?_⟩
    refine Option.bind_eq_some_iff.mpr ⟨(dest, msg), hsent, ?_⟩
    exact Option.bind_eq_some_iff.mpr ⟨n, hat, hact⟩
  refine ⟨w', .single ⟨_, ⟨⟨n, hn, ?_⟩, by simp⟩, hstep⟩, h.step hstep, hw'⟩
  simp [Event.node?, hi, hsent, hat]

/-- **The timer runs out.** -/
theorem exists_condemned (h : w.Known net ids) (hn : n ∈ S)
    (hc : (w.procs n).node.members.get? (ids d) = some c)
    (hr : (w.procs n).node.Revocable c) :
    ∃ w', Among net S w w' ∧ w'.Known net ids ∧ (∀ k ≠ n, w'.procs k = w.procs k) ∧
      ∃ c', (w'.procs n).node.members.get? (ids d) = some c' ∧ c'.state = .dead ∧
        c'.incarnation = c.incarnation := by
  rcases hr with hdead | ⟨hs, harmed⟩
  · exact ⟨w, .refl, h, fun _ _ => rfl, c, hc, hdead, rfl⟩
  · obtain ⟨i, hi, hfire⟩ := (Node.armed_iff (h.own n).keyed hc hs).mp harmed
    have hnext : (w.procs n).next (.suspicionTimer i) =
        some ({ w.procs n with node := (w.procs n).node.suspicionTimer i }, []) := if_pos hi
    obtain ⟨w', hact, hp, hother, -⟩ := exists_act hnext
    have hstep : w.step net (.act n (.suspicionTimer i)) = some w' := hact
    refine ⟨w', .single ⟨_, ⟨⟨n, hn, rfl⟩, by simp⟩, hstep⟩, h.step hstep, hother,
      { c with state := .dead }, ?_, rfl, rfl⟩
    rw [hp]
    dsimp only
    rw [hfire]
    exact Dict.get?_set_self _ _ _

omit [DecidableEq ι] in
theorem isSome_splitAddr (net : Net ι) (n : ι) : (splitAddr (net.addr n)).isSome = true := by
  obtain ⟨s, hs, -⟩ := Option.bind_eq_some_iff.mp (net.at?_addr n)
  exact hs ▸ rfl

/-- A `DEAD` member is pinged. -/
theorem exists_pinged (h : w.Known net ids) (hn : n ∈ S) (haddr : net.addr d = c.addr)
    (hc : c ∈ (w.procs n).node.members.values) (hdead : c.state = .dead) :
    ∃ w' seq, Among net S w w' ∧ w'.Known net ids ∧ (∀ k ≠ n, w'.procs k = w.procs k) ∧
      w'.log = w.log ++
        [(n, .requested (.resurrect c) c.addr ⟨.ping, seq, (w.procs n).node.me, "", []⟩)] ∧
      (w'.procs n).node = (w.procs n).node ∧ (w'.procs n).requests = (w.procs n).requests ++
        [⟨.resurrect c, c.addr, ⟨.ping, seq, (w.procs n).node.me, "", []⟩, false⟩] := by
  obtain ⟨i, hi⟩ : ∃ i : ℕ, ((w.procs n).node.members.values.filter
      fun m => m.state = .dead)[i]? = some c :=
    List.mem_iff_getElem?.mp (List.mem_filter.mpr ⟨hc, decide_eq_true hdead⟩)
  have hnext := Proc.next_resurrect hi (haddr ▸ isSome_splitAddr net d)
  obtain ⟨w', hact, hp, hother, hlog⟩ := exists_act hnext
  have hstep : w.step net (.act n (.resurrect i)) = some w' := hact
  exact ⟨w', _, .single ⟨_, ⟨⟨n, hn, rfl⟩, by simp⟩, hstep⟩, h.step hstep, hother, hlog,
    by rw [hp], by rw [hp]⟩

/-- The ping is answered, which makes the answering node no newer. -/
theorem exists_answered (h : w.Known net ids) (hd : d ∈ S) {log : List (ι × Act)} {caller : Caller}
    {addr targetAddr : String} {seq : ℤ} {sender : Member}
    (hlog : w.log = log ++ [(n, .requested caller addr ⟨.ping, seq, sender, targetAddr, []⟩)])
    (hat : net.at? addr = some d) (haddr : sender.addr = net.addr n) (hne : sender.id ≠ ids d) :
    ∃ w' log' updates, Among net S w w' ∧ w'.Known net ids ∧ (∀ k ≠ d, w'.procs k = w.procs k) ∧
      (w'.procs d).node.incarnation = (w.procs d).node.incarnation ∧ w'.log = log' ++
        [(d, .replied (net.addr n) ⟨.ack, seq, (w'.procs d).node.me, "", updates⟩)] ∧
      ∀ x ∈ updates, x.id = ids d →
        x.state = .alive ∧ x.incarnation ≤ (w'.procs d).node.incarnation := by
  have hpong := (w.procs d).handle_ping seq targetAddr [] (haddr ▸ isSome_splitAddr net n)
  obtain ⟨w', hrun, h', hp, hother, hlog'⟩ := exists_arrived h hd hlog rfl hat hpong
  set r := (w.procs d).node.mergeAll [sender] with hr
  have hown : r.Own := (h.own d).merge sender
  refine ⟨w', w.log ++ [(d, .handled ⟨.ping, seq, sender, targetAddr, []⟩)], r.takeBroadcasts.1,
    hrun, h', hother, ?_, ?_, fun x hx hxid => ?_⟩
  · rw [hp]
    exact Node.incarnation_merge_of_ne (r := (w.procs d).node) (h.id d ▸ hne)
  · rw [hlog', hp, haddr, List.append_assoc]
    rfl
  · rw [Node.takeBroadcasts_fst] at hx
    obtain ⟨entry, hentry, rfl⟩ := List.mem_map.mp hx
    have hid : r.id = ids d := ((w.procs d).node.id_merge sender).trans (h.id d)
    rw [hp]
    exact hown.gossip entry (Quota.mem_of_mem_due hentry) (hxid.trans hid.symm)

/-- **One round trip**: the ping of `_resurrect_once`, its ack, and what the node then records. -/
theorem exists_revived (h : w.Known net ids) (hid : ∀ k, ids k = ids d → k = d) (hn : n ∈ S)
    (hd : d ∈ S) (hne : n ≠ d) (hc : (w.procs n).node.members.get? (ids d) = some c)
    (hdead : c.state = .dead) :
    ∃ w', Among net S w w' ∧ w'.Known net ids ∧
      (w'.procs d).node.incarnation = (w.procs d).node.incarnation ∧
      (∀ k, k ≠ n → k ≠ d → w'.procs k = w.procs k) ∧
      ∃ m, (w'.procs n).node.members.get? (ids d) = some m ∧ m.state = .alive ∧
        m.incarnation = max (w.procs d).node.incarnation (c.incarnation + 1) := by
  have hcid : c.id = ids d := (h.own n).keyed _ c hc
  -- the record has the address of the node
  obtain ⟨k, hk, haddr, -⟩ := h.real c (.inl ⟨n, Node.has_of_get? hc⟩)
  obtain rfl := hid k (hk.trans hcid)
  obtain ⟨w₁, seq, hrun₁, h₁, hother₁, hlog₁, hnode₁, hreq₁⟩ :=
    exists_pinged h hn haddr (Dict.mem_values.mpr ⟨_, hc⟩) hdead
  have hnid : (w.procs n).node.me.id ≠ ids k := fun heq => hne (hid n ((h.id n).symm.trans heq))
  obtain ⟨w₂, log₂, updates, hrun₂, h₂, hother₂, hinc₂, hlog₂, hold⟩ :=
    exists_answered h₁ hd hlog₁ (haddr ▸ net.at?_addr k) (h.procs n).addr hnid
  -- the ack wakes the request
  obtain ⟨w₃, hrun₃, h₃, hp₃, hother₃, -⟩ :=
    exists_arrived h₂ hn hlog₂ rfl (net.at?_addr n) (by rw [Proc.handle])
  have hreq₃ : (w₃.procs n).requests[(w.procs n).requests.length]? =
      some ⟨.resurrect c, c.addr, ⟨.ping, seq, (w.procs n).node.me, "", []⟩, true⟩ := by
    rw [hp₃]
    dsimp only
    rw [hother₂ n hne, hreq₁, List.getElem?_map, List.getElem?_concat_length]
    simp
  have hnext := Proc.next_acked_resurrect hreq₃
  obtain ⟨w₄, hact, hp₄, hother₄, -⟩ := exists_act hnext
  have hstep : w₃.step net (.act n (.acked (w.procs n).requests.length)) = some w₄ := hact
  have hrun : Among net S w₃ w₄ := .single ⟨_, ⟨⟨n, hn, rfl⟩, by simp⟩, hstep⟩
  have hk₄ : w₄.procs k = w₂.procs k := (hother₄ k hne.symm).trans (hother₃ k hne.symm)
  refine ⟨w₄, hrun₁.trans (hrun₂.trans (hrun₃.trans hrun)), h₃.step hstep,
    ?_, fun j hj hjk => ?_, ?_⟩
  · rw [hk₄, hinc₂, hother₁ k hne.symm]
  · rw [hother₄ j hj, hother₃ j hj, hother₂ j hjk, hother₁ j hj]
  · have hnode₃ : (w₃.procs n).node =
        (w.procs n).node.mergeAll ((w₂.procs k).node.me :: updates) := by
      rw [hp₃, ← hnode₁, ← hother₂ n hne]
      rfl
    rw [hp₄]
    dsimp only
    rw [hnode₃, hcid, ← hother₁ k hne.symm, ← hinc₂]
    exact Node.get?_revive (h.own n) hc hdead (h₂.id k) rfl hold

/-- The record that this node had of the other, if it can be taken back, is taken back. -/
def Undone (ids : ι → String) (d : ι) (w w' : World ι) (n : ι) : Prop :=
  ∀ c, (w.procs n).node.members.get? (ids d) = some c → (w.procs n).node.Revocable c →
    ∃ m, (w'.procs n).node.members.get? (ids d) = some m ∧ m.state = .alive ∧
      m.incarnation = max (w.procs d).node.incarnation (c.incarnation + 1)

/-- One node takes it back. -/
theorem exists_undone {x : World ι} (hx : x.Known net ids)
    (hinc : (x.procs d).node.incarnation = (w.procs d).node.incarnation)
    (hsame : x.procs n = w.procs n) (hid : ∀ k, ids k = ids d → k = d) (hd : d ∉ S)
    (hn : n ∈ S) :
    ∃ x', Among net (insert d S) x x' ∧ (x'.Known net ids ∧
      (x'.procs d).node.incarnation = (w.procs d).node.incarnation) ∧ Undone ids d w x' n ∧
        ∀ k ∈ S, k ≠ n → x'.procs k = x.procs k := by
  have hne : n ≠ d := fun heq => hd (heq ▸ hn)
  by_cases hsome : ∃ c, (w.procs n).node.members.get? (ids d) = some c ∧
      (w.procs n).node.Revocable c
  swap
  · exact ⟨x, .refl, ⟨hx, hinc⟩, fun c hc hr => absurd ⟨c, hc, hr⟩ hsome, fun _ _ _ => rfl⟩
  obtain ⟨c, hc, hr⟩ := hsome
  obtain ⟨x₁, hrun₁, hx₁, hother₁, c', hc', hdead, hinc₁⟩ :=
    exists_condemned (S := insert d S) hx (Finset.mem_insert_of_mem hn) (hsame ▸ hc) (hsame ▸ hr)
  obtain ⟨x₂, hrun₂, hx₂, hinc₂, hother₂, m, hm, halive, hmax⟩ :=
    exists_revived (S := insert d S) hx₁ hid (Finset.mem_insert_of_mem hn)
      (Finset.mem_insert_self d S) hne hc' hdead
  have hd₁ : (x₁.procs d).node.incarnation = (w.procs d).node.incarnation := by
    rw [hother₁ d hne.symm, hinc]
  refine ⟨x₂, hrun₁.trans hrun₂, ⟨hx₂, hinc₂.trans hd₁⟩, fun c₀ hc₀ _ => ?_, fun k hk hkn => ?_⟩
  · cases hc.symm.trans hc₀
    exact ⟨m, hm, halive, by rw [hmax, hd₁, hinc₁]⟩
  · rw [hother₂ k hkn fun heq => hd (heq ▸ hk), hother₁ k hkn]

/-- **Verdicts can be undone.**  Take a node, and whichever others, in any state of any run.  With
nobody else, and without a restart, the run can go on so that each of those that had the node
`DEAD` on record, or `SUSPECT` with a timer that is still to run out, has it `ALIVE`, with an
incarnation that is newer than the verdict and no older than the node itself. -/
theorem verdicts_can_be_undone (hid : ∀ k, ids k = ids d → k = d)
    (hw : Steps net (init net ids indirectPingCount) w) (hd : d ∉ S) :
    ∃ w', Among net (insert d S) w w' ∧ ∀ n ∈ S, Undone ids d w w' n := by
  have hcongr : ∀ (n : ι) (x x' : World ι), x'.procs n = x.procs n → Undone ids d w x n →
      Undone ids d w x' n := by
    intro n x x' hsame hdone
    simpa only [Undone, hsame] using hdone
  have hvisit : ∀ n ∈ S.toList, ∀ x : World ι, (x.Known net ids ∧
      (x.procs d).node.incarnation = (w.procs d).node.incarnation) → x.procs n = w.procs n →
      ∃ x', Among net (insert d S) x x' ∧ (x'.Known net ids ∧
        (x'.procs d).node.incarnation = (w.procs d).node.incarnation) ∧ Undone ids d w x' n ∧
          ∀ k ∈ S.toList, k ≠ n → x'.procs k = x.procs k := by
    intro n hn x ⟨hx, hinc⟩ hsame
    simpa only [Finset.mem_toList] using
      exists_undone hx hinc hsame hid hd (Finset.mem_toList.mp hn)
  obtain ⟨w', hrun, -, hall⟩ :=
    Run.each_apart (fun n (x : World ι) => x.procs n) hcongr hvisit ⟨known_steps hw, rfl⟩
  exact ⟨w', hrun, fun n hn => hall n (Finset.mem_toList.mpr hn)⟩

theorem verdicts_can_be_undone_pair : ∃ w', Among pair {false, true} pairDown w' ∧
    ∃ m, (w'.procs true).node.members.get? (pairIds false) = some m ∧ m.state = .alive ∧
      m.incarnation = 1 := by
  have hdead : (pairDown.procs true).node.members.get? (pairIds false) =
      some ⟨"b", "b:7946", .dead, 0⟩ := by
    decide +kernel
  have hzero : (pairDown.procs false).node.incarnation = 0 := by decide +kernel
  have hw : Steps pair (init pair pairIds fun _ => 2) pairDown := Run.steps_get pairVerdict_runs
  obtain ⟨w', hrun, hundone⟩ := verdicts_can_be_undone (d := false) (S := {true}) pairIds_unique hw
    (by simp)
  obtain ⟨m, hm, halive, hmax⟩ := hundone true (Finset.mem_singleton_self _) _ hdead (.inl rfl)
  rw [hzero] at hmax
  exact ⟨w', hrun, m, hm, halive, hmax⟩

end World

end Swim
