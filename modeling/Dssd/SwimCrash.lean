/-
A SWIM node that is down (`Node._probe_once`, `Node._resurrect_once`, `Node._merge`).

* `Proc.Keeps` — requests are told apart from those that were there before by their numbers;
  `Proc.Ends` — the event with which a probe ends;
* `World.Known` — every record, and whoever is probed or revived, is a node of the network;
* `World.Without` — runs in which one node takes no step; `World.Since` — what they leave of
  the requests that waited before, and of what that node had done;
* **`World.crash_is_noticed`** — a probe of this node that begins in such a run does not
  leave it `ALIVE`;
* **`World.dead_stay_dead`** — nor does anything revive it, once it is `DEAD` with an
  incarnation that no record is newer than.
-/
import Dssd.SwimJoin

namespace Swim

open Relation (ReflTransGen)

namespace Node

variable {r : Node} {id : String} {c u : Member} {updates : List Member}

/-- A mark is for members in one state. -/
theorem get?_mark_of_ne (h : r.Keyed) (hc : r.members.get? id = some c)
    {id' : String} {new_state from_state : State} {incarnation : Option ℤ}
    (hs : c.state ≠ from_state) :
    (r.mark id' new_state from_state incarnation).members.get? id = some c := by
  rcases r.mark_cases id' new_state from_state incarnation with heq | ⟨m, hm, hstate, heq⟩
  · rwa [heq]
  · have hid : id ≠ m.id := by
      rintro rfl
      rw [h id' m hm] at hc
      cases hm.symm.trans hc
      exact hs hstate
    rw [heq]
    exact (Dict.get?_set_ne _ _ hid).trans hc

/-- After a failed probe. -/
theorem state_mark_ne_alive (h : r.Keyed)
    (hc : (r.mark id .suspect .alive none).members.get? id = some c) : c.state ≠ .alive := by
  rcases r.mark_cases id .suspect .alive none with heq | ⟨m, hm, hstate, heq⟩
  · rw [heq] at hc
    intro halive
    -- it would have been marked
    rw [mark, hc] at heq
    dsimp only at heq
    rw [if_neg (not_not.mpr halive), if_neg (by simp)] at heq
    have hget := r.get?_members_set ⟨c.id, c.addr, .suspect, c.incarnation⟩
    rw [heq, h id c hc, hc] at hget
    rw [Option.some.inj hget] at halive
    cases halive
  · obtain rfl := h id m hm
    rw [heq] at hc
    have hget := r.get?_members_set ⟨m.id, m.addr, .suspect, m.incarnation⟩
    rw [Option.some.inj (hc.symm.trans hget)]
    simp

/-- The dead are revived only by what is newer. -/
theorem dead_merge (hc : r.members.get? id = some c) (hd : c.state = .dead) (u : Member) :
    (r.merge u).members.get? id = some c ∨ u.id = id ∧ c.incarnation < u.incarnation := by
  rcases r.merge_cases u with ⟨heq, -⟩ | ⟨-, heq, hsup⟩
  · rw [heq]
    exact .inl hc
  · by_cases hid : id = u.id
    · subst hid
      refine .inr ⟨rfl, ?_⟩
      have h := hsup c hc
      unfold supersedes at h
      split at h
      · exact absurd hd h
      · split at h
        · exact h
        · rw [hd] at h
          cases hs : u.state <;> simp [hs, State.severity] at h
    · rw [heq]
      exact .inl ((Dict.get?_set_ne _ _ hid).trans hc)

theorem dead_mergeAll (hc : r.members.get? id = some c) (hd : c.state = .dead)
    (updates : List Member) : (r.mergeAll updates).members.get? id = some c ∨
      ∃ u ∈ updates, u.id = id ∧ c.incarnation < u.incarnation := by
  induction updates generalizing r with
  | nil => exact .inl hc
  | cons u updates ih =>
    rcases dead_merge hc hd u with h | h
    · exact (ih h).imp_right fun ⟨v, hv, h⟩ => ⟨v, List.mem_cons_of_mem _ hv, h⟩
    · exact .inr ⟨u, List.mem_cons_self, h⟩

end Node

/-- The member that a request is about. -/
def Caller.target? : Caller → Option Member
  | .probe _ target => some target
  | .resurrect target => some target
  | _ => none

namespace Proc

variable {p p' p'' : Proc} {e : Event} {s : Proc × List Act} {caller : Caller}
  {addr targetAddr id : String} {type : MsgType} {updates : List Member} {msg : Message}
  {c target : Member} {seq : ℤ}

/-! ### Requests -/

/-- The requests that are not new were there before. -/
structure Keeps (p p' : Proc) : Prop where
  seqNo : p.seqNo ≤ p'.seqNo
  requests : ∀ q ∈ p'.requests, p.seqNo < q.msg.seq ∨
    ∃ q₀ ∈ p.requests, q₀.caller = q.caller ∧ q₀.msg = q.msg

theorem Keeps.refl (p : Proc) : p.Keeps p := ⟨le_rfl, fun q hq => .inr ⟨q, hq, rfl, rfl⟩⟩

theorem Keeps.trans (h : p.Keeps p') (h' : p'.Keeps p'') : p.Keeps p'' where
  seqNo := h.seqNo.trans h'.seqNo
  requests q hq := by
    rcases h'.requests q hq with hlt | ⟨q₀, hq₀, hcaller, hmsg⟩
    · exact .inl (h.seqNo.trans_lt hlt)
    · rcases h.requests q₀ hq₀ with hlt | ⟨q₁, hq₁, hcaller', hmsg'⟩
      · exact .inl (hmsg ▸ hlt)
      · exact .inr ⟨q₁, hq₁, hcaller'.trans hcaller, hmsg'.trans hmsg⟩

theorem Keeps.less (hseq : p.seqNo ≤ p'.seqNo) (hq : p'.requests ⊆ p.requests) : p.Keeps p' :=
  ⟨hseq, fun q hmem => .inr ⟨q, hq hmem, rfl, rfl⟩⟩

theorem keeps_request : p.Keeps (p.request caller addr type updates targetAddr).1 := by
  unfold Proc.request
  dsimp only
  split
  · refine ⟨Int.le_add_one le_rfl, fun q hq => ?_⟩
    rcases List.mem_append.mp hq with hq | hq
    · exact .inr ⟨q, hq, rfl, rfl⟩
    · cases List.mem_singleton.mp hq
      exact .inl (Int.lt_succ p.seqNo)
  · cases caller <;> exact .less (Int.le_add_one le_rfl) (List.Subset.refl _)

theorem keeps_acked : p.Keeps (p.acked msg caller).1 := by
  cases caller with
  | relay req => exact .refl p
  | _ => exact .less le_rfl (List.Subset.refl _)

theorem keeps_timedOut {sample : List Member} (h : p.timedOut msg sample caller = some p') :
    p.Keeps p' := by
  cases caller with
  | probe candidates target =>
    obtain ⟨-, h⟩ := Option.ite_none_right_eq_some.mp h
    split at h <;> obtain rfl := Option.some.inj h <;> exact .less le_rfl (List.Subset.refl _)
  | _ =>
    obtain rfl := Option.some.inj h
    exact .less le_rfl (List.Subset.refl _)

theorem keeps_handle : p.Keeps (p.handle msg).1 := by
  obtain ⟨type, seq, sender, targetAddr, updates⟩ := msg
  have hwake : p.Keeps { p with
      node := p.node.mergeAll (sender :: updates)
      requests := p.requests.map fun q =>
        if q.msg.seq = seq then { q with done := true } else q } := by
    refine ⟨le_rfl, fun q hq => .inr ?_⟩
    obtain ⟨q₀, hq₀, rfl⟩ := List.mem_map.mp hq
    refine ⟨q₀, hq₀, ?_⟩
    split
    · exact ⟨rfl, rfl⟩
    · exact ⟨rfl, rfl⟩
  cases type with
  | ack | joinAck => exact hwake
  | ping | join | pingReq => exact .less le_rfl (List.Subset.refl _)

/-- A step tells its requests apart from the old ones. -/
theorem keeps_next (h : p.next e = some s) : p.Keeps s.1 := by
  have herase : ∀ (i : ℕ), p.Keeps { p with requests := p.requests.eraseIdx i } := fun i =>
    .less le_rfl fun _ hq => List.mem_of_mem_eraseIdx hq
  cases moves h with
  | join | resurrect => exact keeps_request
  | probe =>
    have htake : p.Keeps { p with node := p.node.takeBroadcasts.2 } :=
      .less le_rfl (List.Subset.refl _)
    exact htake.trans keeps_request
  | @ask i | @relay i =>
    have hstart : p.Keeps { p with ready := p.ready.eraseIdx i } :=
      .less le_rfl (List.Subset.refl _)
    exact hstart.trans keeps_request
  | @acked i q => exact (herase i).trans keeps_acked
  | @timedOut i sample q p' _ hp' => exact (herase i).trans (keeps_timedOut hp')
  | answered | unanswered | suspicionTimer => exact .less le_rfl (List.Subset.refl _)
  | handle => exact keeps_handle
  | restart => exact .less le_rfl fun _ hq => List.mem_of_mem_filter hq

/-- Whoever is probed or revived is on record. -/
theorem picked_next (h : p.next e = some s) (hm : .requested caller addr msg ∈ s.2)
    (ht : caller.target? = some target) : target ∈ p.node.members.values := by
  cases moves h with
  | join | ask | relay =>
    cases mem_request hm
    cases ht
  | probe hpick | resurrect hpick =>
    cases mem_request hm
    cases ht
    exact List.mem_of_mem_filter (List.mem_of_getElem? hpick)
  | @acked i q =>
    obtain ⟨caller, addr, msg, done⟩ := q
    rcases List.mem_cons.mp hm with hm | hm
    · cases hm
    · cases caller with
      | relay req => cases mem_reply hm
      | probe => cases List.mem_singleton.mp hm
      | join | ask | resurrect => cases hm
  | timedOut | answered => cases List.mem_singleton.mp hm
  | unanswered | suspicionTimer | restart => cases hm
  | handle msg =>
    obtain ⟨type, seq, sender, targetAddr, updates⟩ := msg
    rcases List.mem_cons.mp hm with hm | hm
    · cases hm
    · cases type with
      | ping | join => cases mem_reply hm
      | pingReq | ack | joinAck => cases hm

/-- What returns has waited. -/
theorem returned_next {acked : Bool} (h : p.next e = some s)
    (hm : .returned caller addr msg acked ∈ s.2) :
    ∃ q ∈ p.requests, q.caller = caller ∧ q.msg = msg := by
  cases moves h with
  | join | probe | resurrect | ask | relay => cases mem_request hm
  | @acked i q hq =>
    obtain ⟨caller', addr', msg', done⟩ := q
    rcases List.mem_cons.mp hm with hm | hm
    · cases hm
      exact ⟨_, List.mem_of_getElem? hq, rfl, rfl⟩
    · cases caller' with
      | relay req => cases mem_reply hm
      | probe => cases List.mem_singleton.mp hm
      | join | ask | resurrect => cases hm
  | @timedOut i sample q p' hq =>
    cases List.mem_singleton.mp hm
    exact ⟨q, List.mem_of_getElem? hq, rfl, rfl⟩
  | answered => cases List.mem_singleton.mp hm
  | unanswered | suspicionTimer | restart => cases hm
  | handle msg' =>
    obtain ⟨type, seq, sender, targetAddr, updates⟩ := msg'
    rcases List.mem_cons.mp hm with hm | hm
    · cases hm
    · cases type with
      | ping | join => cases mem_reply hm
      | pingReq | ack | joinAck => cases hm

/-! ### Verdicts -/

/-- The event ends the probe with this number: it is acked, nobody else can be asked, or all that
were asked are done. -/
inductive Ends (p : Proc) : Event → ℤ → Member → Prop
  | acked {i : ℕ} {q : Request} {candidates : List Member} {target : Member}
      (request : p.requests[i]? = some q) (caller : q.caller = .probe candidates target) :
      Ends p (.acked i) q.msg.seq target
  | alone {i : ℕ} {q : Request} {candidates : List Member} {target : Member}
      (request : p.requests[i]? = some q) (caller : q.caller = .probe candidates target) :
      Ends p (.timedOut i []) q.msg.seq target
  | gathered {i : ℕ} {pr : Probe} (probe : p.probes[i]? = some pr) :
      Ends p (.gathered i) pr.id pr.target

/-- A probe ends with an answer or with a mark. -/
theorem Ends.answered_or_marked (he : p.Ends e seq target) (h : p.next e = some s) :
    .answered seq target ∈ s.2 ∨ s.1.node = p.node.mark target.id .suspect .alive none := by
  cases he with
  | @acked i q candidates target hq hcaller =>
    cases moves h with
    | @acked i q' hq' =>
      obtain rfl := Option.some.inj (hq'.symm.trans hq)
      rw [hcaller]
      exact .inl (by simp [Proc.acked])
  | @alone i q candidates target hq hcaller =>
    cases moves h with
    | @timedOut i sample q' p' hq' hp' =>
      obtain rfl := Option.some.inj (hq'.symm.trans hq)
      rw [hcaller] at hp'
      obtain ⟨-, hp'⟩ := Option.ite_none_right_eq_some.mp hp'
      rw [if_pos rfl] at hp'
      obtain rfl := Option.some.inj hp'
      exact .inr rfl
  | @gathered i pr hpr =>
    cases moves h with
    | @answered i pr' hpr' =>
      obtain rfl := Option.some.inj (hpr'.symm.trans hpr)
      exact .inl List.mem_cons_self
    | @unanswered i pr' hpr' =>
      obtain rfl := Option.some.inj (hpr'.symm.trans hpr)
      exact .inr rfl

/-- The dead are revived by what is newer, or by an ack. -/
theorem dead_next (hk : p.node.Keyed) (h : p.next e = some s)
    (hc : p.node.members.get? id = some c) (hd : c.state = .dead) :
    s.1.node.members.get? id = some c ∨
      (∃ msg, e = .handle msg ∧ ∃ u ∈ msg.gossip, u.id = id ∧ c.incarnation < u.incarnation) ∨
      ∃ target addr msg, .returned (.resurrect target) addr msg true ∈ s.2 ∧ target.id = id := by
  have hmark : ∀ {id' : String}, (p.node.mark id' .suspect .alive none).members.get? id = some c :=
    Node.get?_mark_of_ne hk hc (by rw [hd]; exact nofun)
  cases moves h with
  | join | resurrect | ask | relay | probe =>
    rw [node_request]
    exact .inl hc
  | @acked i q =>
    obtain ⟨caller, addr, msg, done⟩ := q
    cases caller with
    | resurrect target =>
      by_cases hid : target.id = id
      · exact .inr (.inr ⟨target, addr, msg, List.mem_cons_self, hid⟩)
      · refine .inl ?_
        show (p.node.resurrect target.id).members.get? id = some c
        unfold Node.resurrect
        split
        · exact hc
        · rename_i m hm
          have hne : id ≠ m.id := fun heq => hid ((hk _ _ hm).symm.trans heq.symm)
          split
          · exact (Dict.get?_set_ne _ _ hne).trans hc
          · exact hc
    | join | ask | probe | relay => exact .inl hc
  | @timedOut i sample q p' _ hp' =>
    obtain ⟨caller, addr, msg, done⟩ := q
    cases caller with
    | probe candidates target =>
      obtain ⟨-, hp'⟩ := Option.ite_none_right_eq_some.mp hp'
      split at hp' <;> obtain rfl := Option.some.inj hp'
      · exact .inl hmark
      · exact .inl hc
    | join | ask | relay | resurrect =>
      obtain rfl := Option.some.inj hp'
      exact .inl hc
  | answered => exact .inl hc
  | unanswered => exact .inl hmark
  | @suspicionTimer k =>
    refine .inl ?_
    show (p.node.suspicionTimer k).members.get? id = some c
    unfold Node.suspicionTimer
    split
    · exact hc
    · exact Node.get?_mark_of_ne (r := { p.node with timers := p.node.timers.eraseIdx k }) hk hc
        (by rw [hd]; exact nofun)
  | handle msg =>
    rw [members_handle]
    exact (Node.dead_mergeAll hc hd msg.gossip).imp_right fun h => .inl ⟨msg, rfl, h⟩
  | restart => exact .inl hc

end Proc

namespace World

variable {ι : Type} [DecidableEq ι] {net : Net ι} {ids : ι → String}
  {indirectPingCount : ι → ℕ} {w w' x x' : World ι} {e : Event ι} {d n : ι} {c target : Member}
  {seq : ℤ}

/-! ### Who is probed -/

/-- Records are about nodes, and so are the requests that are about somebody. -/
structure Known (net : Net ι) (ids : ι → String) (w : World ι) : Prop
    extends Peopled net ids w where
  real : ∀ m, w.Rumor m → w.Real net ids m
  picked : ∀ n caller addr msg target, (n, .requested caller addr msg) ∈ w.log →
    caller.target? = some target → ∃ k, ids k = target.id ∧ net.addr k = target.addr

theorem known_init (net : Net ι) (ids : ι → String) (indirectPingCount : ι → ℕ) :
    (init net ids indirectPingCount).Known net ids where
  toPeopled := peopled_init net ids indirectPingCount
  real m hm := by
    rcases hm with ⟨n, h | h⟩ | ⟨n, act, dest, msg, h, -⟩
    · cases h
    · cases h
    · cases h
  picked _ _ _ _ _ h := by cases h

theorem Known.step (h : w.Known net ids) (hs : w.step net e = some w') : w'.Known net ids := by
  refine ⟨(h.toPeopled.step hs).1, fun m hm => real_step h.toPeopled h.real hs hm,
    fun k caller addr msg target hmem ht => ?_⟩
  obtain ⟨n, e', acts, hnext, hlog, -⟩ := exists_next hs
  rw [hlog] at hmem
  rcases List.mem_append.mp hmem with hmem | hmem
  · exact h.picked k caller addr msg target hmem ht
  · obtain ⟨act, hact, heq⟩ := List.mem_map.mp hmem
    cases heq
    obtain ⟨j, hid, haddr, -⟩ := h.real target (.inl ⟨_, .inl (Proc.picked_next hnext hact ht)⟩)
    exact ⟨j, hid, haddr⟩

theorem known_steps (h : Steps net (init net ids indirectPingCount) w) : w.Known net ids :=
  Run.invariant (P := fun w => w.Known net ids) (fun _ _ ⟨_, he⟩ h => h.step he) h
    (known_init net ids indirectPingCount)

/-- A node at the address of a target is the target. -/
theorem Known.at_target (h : w.Known net ids) (hid : ∀ k, ids k = ids d → k = d) {k : ι}
    {caller : Caller} {addr : String} {msg : Message}
    (hmem : (n, .requested caller addr msg) ∈ w.log) (ht : caller.target? = some target)
    (htarget : target.id = ids d) (hat : net.at? target.addr = some k) : k = d := by
  obtain ⟨j, hj, haddr⟩ := h.picked n caller addr msg target hmem ht
  obtain rfl := hid j (hj.trans htarget)
  rw [← haddr, net.at?_addr] at hat
  exact (Option.some.inj hat).symm

/-! ### While a node is down -/

/-- A run in which this node takes no step. -/
def Without (net : Net ι) (d : ι) (w w' : World ι) : Prop :=
  ReflTransGen (Run.StepWhere (step net) fun w e => e.node? net w ≠ some d) w w'

/-- What such a run leaves as it was. -/
structure Since (d : ι) (w x : World ι) : Prop where
  log : ∃ rest, x.log = w.log ++ rest ∧ ∀ act, (d, act) ∉ rest
  keeps : ∀ n, (w.procs n).Keeps (x.procs n)

theorem Since.step (h : Since d w x) (hs : x.step net e = some x')
    (he : e.node? net x ≠ some d) : Since d w x' := by
  obtain ⟨n, e', acts, hnext, hlog, hother, -, hnode⟩ := exists_next hs
  have hn : n ≠ d := fun heq => he (heq ▸ hnode)
  refine ⟨?_, fun k => ?_⟩
  · obtain ⟨rest, hrest, hd⟩ := h.log
    refine ⟨rest ++ acts.map (n, ·), by rw [hlog, hrest, List.append_assoc], fun act hmem => ?_⟩
    rcases List.mem_append.mp hmem with hmem | hmem
    · exact hd act hmem
    · obtain ⟨act', -, heq⟩ := List.mem_map.mp hmem
      exact hn (Prod.mk.inj heq).1
  · by_cases hk : k = n
    · subst hk
      exact (h.keeps k).trans (Proc.keeps_next hnext)
    · rw [hother k hk]
      exact h.keeps k

theorem Without.since (h : Without net d w x) : Since d w x :=
  Run.invariant (P := fun x => Since d w x) (fun _ _ ⟨_, hne, he⟩ h => h.step he hne) h
    ⟨⟨[], (List.append_nil _).symm, fun _ => List.not_mem_nil⟩, fun _ => .refl _⟩

theorem Without.steps (h : Without net d w x) : Steps net w x :=
  ReflTransGen.mono (fun _ _ h => h.step) _ _ h

omit [DecidableEq ι] in
/-- What came before something that this node did came before it went down. -/
theorem Since.before (h : Since d w x) {a : ι × Act} {act : Act}
    (hchain : [a, (d, act)].Sublist x.log) : a ∈ w.log := by
  obtain ⟨rest, hrest, hd⟩ := h.log
  rw [hrest] at hchain
  obtain ⟨l₁, l₂, heq, h₁, h₂⟩ := List.sublist_append_iff.mp hchain
  match l₁, l₂, heq, h₁, h₂ with
  | [], _, rfl, _, h₂ => exact absurd (h₂.subset (by simp)) (hd act)
  | [_], _, rfl, _, h₂ => exact absurd (h₂.subset (by simp)) (hd act)
  | _ :: _ :: _, _, heq, h₁, _ =>
    obtain ⟨rfl, -⟩ := List.cons.inj heq
    exact h₁.subset List.mem_cons_self

/-- Only pings that were sent before are answered. -/
theorem Since.answered (h : Since d w x) (hw : w.Known net ids) (hx : x.Known net ids)
    (hid : ∀ k, ids k = ids d → k = d) {caller : Caller} {msg : Message}
    (ht : caller.target? = some target) (htarget : target.id = ids d)
    (hanswered : Answered net x.log n caller target.addr msg) : msg.seq ≤ (w.procs n).seqNo := by
  obtain ⟨k, ack, hat, -, -, hchain⟩ := hanswered
  obtain rfl := hx.at_target hid (hchain.subset List.mem_cons_self) ht htarget hat
  have hpair : [(n, Act.requested caller target.addr msg), (k, .handled msg)].Sublist x.log :=
    .trans (by simp) hchain
  exact (hw.procs n).seq _ _ _ (mem_own.mpr (h.before hpair))

/-- **No probe that begins while its target is down is answered.** -/
theorem Since.probe_answered (h : Since d w x) (hw : w.Known net ids) (hx : x.Known net ids)
    (hid : ∀ k, ids k = ids d → k = d) (hmem : (n, .answered seq target) ∈ x.log)
    (htarget : target.id = ids d) : seq ≤ (w.procs n).seqNo := by
  obtain ⟨before, after, hlog, -, ⟨⟨candidates, ping, hping, -, -⟩, -⟩, -⟩ :=
    hx.honest.exists_of_mem hmem
  have hsub : before.Sublist x.log := hlog ▸ List.sublist_append_left _ _
  rcases hx.honest.earned before _ after hlog with
    ⟨candidates', ping', -, rfl, k, ack, hat, hack, hseq, hchain⟩ |
    ⟨addr, req, haddr, helper, k, ping', ack, -, hat, -, -, -, hchain⟩
  · have hanswered : Answered net x.log n (.probe candidates' target) target.addr ping' :=
      ⟨k, ack, hat, hack, hseq, hchain.trans hsub⟩
    exact h.answered hw hx hid rfl htarget hanswered
  · obtain rfl := hx.at_target hid (hsub.subset (mem_own.mp hping)) rfl htarget (haddr ▸ hat)
    have hpair : [(n, Act.requested (.ask seq) addr req), (k, .handled ping')].Sublist x.log :=
      .trans (.cons_cons _ (.cons _ (.cons _ (by simp)))) (hchain.trans hsub)
    -- the helper was asked after the ping of the probe itself
    obtain ⟨-, target', ⟨candidates', ping'', hmem', -, rfl⟩, -⟩ :=
      Proc.asks_of_mem (hw.honest.backed n) (mem_own.mpr (h.before hpair))
    exact (hw.procs n).seq _ _ _ hmem'

/-- **A crash is noticed.**  Let a node stop at any moment of a run, whatever is under way then.  A
probe of it that another node begins afterwards can only end with a mark: when it has ended, that
node does not have it `ALIVE` on record. -/
theorem crash_is_noticed (hid : ∀ k, ids k = ids d → k = d)
    (hw : Steps net (init net ids indirectPingCount) w) (hdown : Without net d w x) (hn : n ≠ d)
    {e : Proc.Event} (hs : x.step net (.act n e) = some x') (hends : (x.procs n).Ends e seq target)
    (htarget : target.id = ids d) (hnew : (w.procs n).seqNo < seq) :
    ∀ c, (x'.procs n).node.members.get? (ids d) = some c → c.state ≠ .alive := by
  have hx := known_steps (hw.trans hdown.steps)
  have hsince : Since d w x' := hdown.since.step hs fun heq => hn (Option.some.inj heq)
  obtain ⟨acts, hnext, hlog, -⟩ := next_of_step hs
  rcases hends.answered_or_marked hnext with hanswered | hmark
  · have hmem : (n, Act.answered seq target) ∈ x'.log := by
      rw [hlog]
      exact List.mem_append_right _ (List.mem_map_of_mem hanswered)
    have hle := hsince.probe_answered (known_steps hw) (hx.step hs) hid hmem htarget
    exact absurd hnew (not_lt.mpr hle)
  · intro c hc
    rw [hmark, ← htarget] at hc
    exact Node.state_mark_ne_alive (hx.own n).keyed hc

/-- `a` and `b`, each at its own host. -/
def pairIds : Bool → String := fun n => if n then "a" else "b"

def pair : Net Bool where
  sock n := (pairIds n, 7946)
  bound s := if s = ("a", 7946) then some true else if s = ("b", 7946) then some false else none
  reach := by decide +kernel

theorem pairIds_unique : ∀ k, pairIds k = pairIds false → k = false := by
  decide

/-- `b` joins `a`, and goes down. -/
def pairJoin : List (Event Bool) :=
  [.act false (.join "a:7946"), .deliver 0, .deliver 2, .act false (.acked 0)]

theorem pairJoin_runs :
    (Run.exec (step pair) (init pair pairIds fun _ => 2) pairJoin).isSome = true := by
  decide +kernel

def pairUp : World Bool :=
  (Run.exec (step pair) (init pair pairIds fun _ => 2) pairJoin).get pairJoin_runs

theorem pairProbe_runs : (Run.execWhere (step pair) (fun w e => e.node? pair w ≠ some false) pairUp
    [.act true (.probe 0)]).isSome = true := by
  decide +kernel

/-- `a` pings it, in vain. -/
def pairProbe : World Bool := (Run.execWhere (step pair) (fun w e => e.node? pair w ≠ some false)
  pairUp [.act true (.probe 0)]).get pairProbe_runs

theorem crash_is_noticed_pair : ∃ x, pairProbe.step pair (.act true (.timedOut 0 [])) = some x ∧
    ∀ c, (x.procs true).node.members.get? (pairIds false) = some c → c.state ≠ .alive := by
  have hsome : (pairProbe.step pair (.act true (.timedOut 0 []))).isSome = true := by
    decide +kernel
  have hwait : ((pairProbe.procs true).requests[0]?).isSome = true := by decide +kernel
  obtain ⟨x, hx⟩ := Option.isSome_iff_exists.mp hsome
  obtain ⟨q, hq⟩ := Option.isSome_iff_exists.mp hwait
  have hfor : (pairProbe.procs true).requests[0]?.map Request.caller =
      some (.probe [⟨"b", "b:7946", .alive, 0⟩] ⟨"b", "b:7946", .alive, 0⟩) := by
    decide +kernel
  have hseq : (pairProbe.procs true).requests[0]?.map (fun q => q.msg.seq) =
      some ((pairUp.procs true).seqNo + 1) := by
    decide +kernel
  rw [hq] at hfor hseq
  have hnew : q.msg.seq = (pairUp.procs true).seqNo + 1 := Option.some.inj hseq
  have hw : Steps pair (init pair pairIds fun _ => 2) pairUp := Run.steps_get pairJoin_runs
  have hdown : Without pair false pairUp pairProbe := Run.stepsWhere_get pairProbe_runs
  exact ⟨x, hx, crash_is_noticed pairIds_unique hw hdown (by decide) hx
    (.alone hq (Option.some.inj hfor)) rfl
    (hnew ▸ Int.lt_succ (pairUp.procs true).seqNo)⟩

/-- A node that is down revives nobody's record of it. -/
theorem Since.not_revived (h : Since d w x) (hw : w.Known net ids) (hx : x.Known net ids)
    (hid : ∀ k, ids k = ids d → k = d) (hs : x.step net e = some x') (h' : Since d w x')
    (hidle : ∀ k, ∀ q ∈ (w.procs k).requests, ∀ t, q.caller = .resurrect t → t.id ≠ ids d)
    {e' : Proc.Event} {acts : List Act} (hnext : (x.procs n).next e' = some (x'.procs n, acts))
    (hlog : x'.log = x.log ++ acts.map (n, ·)) {addr : String} {msg : Message}
    (hmem : .returned (.resurrect target) addr msg true ∈ acts) : target.id ≠ ids d := by
  intro htarget
  have hx' := hx.step hs
  have hret : (n, Act.returned (.resurrect target) addr msg true) ∈ x'.log := by
    rw [hlog]
    exact List.mem_append_right _ (List.mem_map_of_mem hmem)
  obtain ⟨before, after, hsplit, hbefore, ⟨hreq, -⟩, -⟩ := hx'.honest.exists_of_mem hret
  obtain ⟨htype, rfl⟩ := Proc.asks_of_mem (hbefore.backed n) hreq
  -- the ping was answered, so it had been sent before the node went down
  obtain ⟨k, ack, hat, hack, hseq, hchain⟩ :=
    (hx'.honest.earned before _ after hsplit).1 htype
  have hle := h'.answered hw hx' hid rfl htarget
    ⟨k, ack, hat, hack, hseq, hchain.trans (hsplit ▸ List.sublist_append_left _ _)⟩
  -- and its request was waiting then
  obtain ⟨q, hq, hcaller, rfl⟩ := Proc.returned_next hnext hmem
  rcases (h.keeps n).requests q hq with hlt | ⟨q₀, hq₀, hcaller', -⟩
  · exact absurd hlt (not_lt.mpr hle)
  · exact hidle n q₀ hq₀ target (hcaller'.trans hcaller) htarget

/-- **The dead stay dead.**  Let a node stop while nobody waits for an ack to revive it.  Whoever
then has it `DEAD` with an incarnation that no record anywhere, datagrams that may still arrive
included, is newer than, has this record for as long as the node is down. -/
theorem dead_stay_dead (hid : ∀ k, ids k = ids d → k = d)
    (hw : Steps net (init net ids indirectPingCount) w)
    (hidle : ∀ k, ∀ q ∈ (w.procs k).requests, ∀ t, q.caller = .resurrect t → t.id ≠ ids d)
    (hnewest : ∀ m, w.Rumor m → m.id = ids d → m.incarnation ≤ c.incarnation)
    (hc : (w.procs n).node.members.get? (ids d) = some c) (hdead : c.state = .dead)
    (hdown : Without net d w x) : (x.procs n).node.members.get? (ids d) = some c := by
  have hw := known_steps hw
  suffices key : (x.Known net ids ∧ Since d w x) ∧
      (∀ m, x.Rumor m → m.id = ids d → m.incarnation ≤ c.incarnation) ∧
      (x.procs n).node.members.get? (ids d) = some c from key.2.2
  refine Run.invariant (P := fun x => (x.Known net ids ∧ Since d w x) ∧
    (∀ m, x.Rumor m → m.id = ids d → m.incarnation ≤ c.incarnation) ∧
      (x.procs n).node.members.get? (ids d) = some c) ?_ hdown
    ⟨⟨hw, Without.since (show Without net d w w from .refl)⟩, hnewest, hc⟩
  rintro x x' ⟨e, hne, hs⟩ ⟨⟨hx, hsince⟩, hold, hrecord⟩
  have hsince' := hsince.step hs hne
  refine ⟨⟨hx.step hs, hsince'⟩, fun m hm hmid => ?_, ?_⟩
  · rcases hm.step hx.toPeopled hs with hm | ⟨k, e', acts, hlog, -, hnode, hnext, hcoins⟩
    · exact hold m hm hmid
    cases hcoins with
    | own havows =>
      -- the node itself says nothing
      have hk := hid k (((hx.step hs).id k).symm.trans (havows.id.symm.trans hmid))
      exact absurd (hk ▸ hnode) hne
    | @suspect c' hc' => exact hold c' (.inl ⟨k, Node.has_of_get? hc'⟩) hmid
    | @dead c' _ hc' => exact hold c' (.inl ⟨k, Node.has_of_get? hc'⟩) hmid
    | @revived c' target addr msg hc' _ hret hid' =>
      exact absurd (hid'.trans hmid)
        (hsince.not_revived hw hx hid hs hsince' hidle hnext hlog hret)
  · obtain ⟨k, e', acts, hnext, hlog, hother, he, -⟩ := exists_next hs
    by_cases hk : n = k
    swap
    · rw [hother n hk]
      exact hrecord
    subst hk
    rcases Proc.dead_next (hx.own n).keyed hnext hrecord hdead with
      h | ⟨msg, rfl, u, hu, huid, hlt⟩ | ⟨target, addr, msg, hret, htarget⟩
    · exact h
    · -- what arrives was around before
      rcases he with rfl | ⟨msg', heq, j, act, dest, hmem, hsent, -⟩
      · cases hs
      · cases heq
        exact absurd hlt (not_lt.mpr (hold u (.inr ⟨j, act, dest, msg, hmem, hsent, hu⟩) huid))
    · exact absurd htarget (hsince.not_revived hw hx hid hs hsince' hidle hnext hlog hret)

/-- Nobody answers `a`, and its timer runs out. -/
def pairVerdict : List (Event Bool) :=
  pairJoin ++ [.act true (.probe 0), .act true (.timedOut 0 []), .act true (.suspicionTimer 0)]

theorem pairVerdict_runs :
    (Run.exec (step pair) (init pair pairIds fun _ => 2) pairVerdict).isSome = true := by
  decide +kernel

def pairDown : World Bool :=
  (Run.exec (step pair) (init pair pairIds fun _ => 2) pairVerdict).get pairVerdict_runs

theorem pairLate_runs : (Run.execWhere (step pair) (fun w e => e.node? pair w ≠ some false) pairDown
    [.deliver 0]).isSome = true := by
  decide +kernel

/-- The `JOIN` of `b` arrives once more. -/
def pairLate : World Bool := (Run.execWhere (step pair) (fun w e => e.node? pair w ≠ some false)
  pairDown [.deliver 0]).get pairLate_runs

theorem dead_stay_dead_pair : (pairLate.procs true).node.members.get? (pairIds false) =
    some ⟨"b", "b:7946", .dead, 0⟩ := by
  have hw : Steps pair (init pair pairIds fun _ => 2) pairDown := Run.steps_get pairVerdict_runs
  have hidle : ∀ k, (pairDown.procs k).requests = [] := by decide +kernel
  refine dead_stay_dead pairIds_unique hw (fun k q hq => ?_) (fun m hm hmid => ?_)
    (by decide +kernel) rfl (Run.stepsWhere_get pairLate_runs)
  · rw [hidle k] at hq
    cases hq
  · obtain ⟨k, hk, -, hle⟩ := (known_steps hw).real m hm
    obtain rfl := pairIds_unique k (hk.trans hmid)
    have hzero :
      (pairDown.procs false).node.incarnation + pairDown.revivals (pairIds false) ≤ 0 := by
      decide +kernel
    exact hle.trans (hmid ▸ hzero)

end World

end Swim
