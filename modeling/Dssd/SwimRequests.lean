/-
What a node has on record of its own requests (`Node._request`, `Node._waiters`).

* `Proc.Asks`, `Proc.Backed` — what must have happened at a node before it does
  something;
* `Proc.Sound` — the coroutines in progress come from what the node has done;
* `Proc.Sound.next` — a step of the node keeps both: its log, the list of all that it
  has done, is `Grounded`.
-/
import Dssd.Grounded
import Dssd.SwimProcess

namespace Swim

namespace Node

variable (r : Node)

theorem addr_merge (update : Member) : (r.merge update).addr = r.addr := by
  unfold merge
  split
  · split <;> rfl
  · split
    · split <;> rfl
    · split <;> rfl

theorem addr_mergeAll (updates : List Member) : (r.mergeAll updates).addr = r.addr := by
  unfold mergeAll
  induction updates generalizing r with
  | nil => rfl
  | cons u updates ih => exact (ih (r.merge u)).trans (r.addr_merge u)

theorem addr_mark (id : String) (new_state from_state : State) (incarnation : Option ℤ) :
    (r.mark id new_state from_state incarnation).addr = r.addr := by
  rcases r.mark_cases id new_state from_state incarnation with h | ⟨m, -, -, h⟩
  · rw [h]
  · rw [h]
    rfl

theorem addr_suspicionTimer (k : ℕ) : (r.suspicionTimer k).addr = r.addr := by
  unfold suspicionTimer
  split
  · rfl
  · exact addr_mark _ _ _ _ _

theorem addr_resurrect (id : String) : (r.resurrect id).addr = r.addr := by
  unfold resurrect
  split
  · rfl
  · split <;> rfl

end Node

namespace Proc

/-! ### Grounds -/

/-- The probe with this sequence number has this target. -/
def Probing (before : List Act) (probe : ℤ) (target : Member) : Prop :=
  ∃ candidates ping, .requested (.probe candidates target) target.addr ping ∈ before ∧
    ping.type = .ping ∧ ping.seq = probe

/-- What a request is for. -/
def Asks (before : List Act) (caller : Caller) (addr : String) (msg : Message) : Prop :=
  match caller with
  | .join => msg.type = .join
  | .probe _ target => msg.type = .ping ∧ addr = target.addr
  | .ask probe => msg.type = .pingReq ∧
      ∃ target, Probing before probe target ∧ msg.targetAddr = target.addr
  | .relay req => msg.type = .ping ∧ addr = req.targetAddr ∧ req.type = .pingReq ∧
      .handled req ∈ before
  | .resurrect target => msg.type = .ping ∧ addr = target.addr

/-- The waiter of this request has got a result. -/
def Woken (before : List Act) (msg : Message) : Prop :=
  ∃ ack, .handled ack ∈ before ∧ ack.seq = msg.seq ∧ (ack.type = .ack ∨ ack.type = .joinAck)

/-- What an answer is for: a message that was handled, or a relayed ping that got its ack. -/
def Answers (before : List Act) (addr : String) (msg : Message) : Prop :=
  (∃ req, .handled req ∈ before ∧ addr = req.sender.addr ∧ msg.seq = req.seq ∧
      (req.type = .ping ∧ msg.type = .ack ∨ req.type = .join ∧ msg.type = .joinAck)) ∨
    ∃ req dest ping, .returned (.relay req) dest ping true ∈ before ∧ addr = req.sender.addr ∧
      msg.seq = req.seq ∧ msg.type = .ack

/-- What the node at `home` must have done before. -/
def Backed (home : String) (before : List Act) : Act → Prop
  | .requested caller addr msg => Asks before caller addr msg ∧ msg.sender.addr = home ∧
      ∀ caller' addr' msg', .requested caller' addr' msg' ∈ before → msg'.seq < msg.seq
  | .replied addr msg => Answers before addr msg ∧ msg.sender.addr = home
  | .handled _ => True
  | .returned caller addr msg acked => .requested caller addr msg ∈ before ∧
      (acked = true → Woken before msg)
  | .answered probe target => Probing before probe target ∧
      ((∃ candidates ping, .returned (.probe candidates target) target.addr ping true ∈ before ∧
          ping.type = .ping ∧ ping.seq = probe) ∨
        ∃ addr req, .returned (.ask probe) addr req true ∈ before)

/-! ### Coroutines in progress -/

/-- The coroutines in progress of the node at `home`, which has done all this. -/
structure Sound (home : String) (log : List Act) (p : Proc) : Prop where
  addr : p.node.addr = home
  seq : ∀ caller addr msg, .requested caller addr msg ∈ log → msg.seq ≤ p.seqNo
  requests : ∀ q ∈ p.requests, .requested q.caller q.addr q.msg ∈ log ∧
    (q.done = true → Woken log q.msg)
  probes : ∀ pr ∈ p.probes, Probing log pr.id pr.target ∧
    (pr.acked = true → ∃ addr req, .returned (.ask pr.id) addr req true ∈ log)
  asks : ∀ probe helper target, .ask probe helper target ∈ p.ready → Probing log probe target
  relays : ∀ req, .relay req ∈ p.ready → req.type = .pingReq ∧ .handled req ∈ log

variable {home : String} {log log' acts : List Act} {p p' : Proc} {e : Event} {caller : Caller}
  {addr targetAddr : String} {type : MsgType} {updates sample : List Member} {msg : Message}
  {probe : ℤ} {target : Member} {act : Act}

theorem Probing.mono (hsub : log ⊆ log') (h : Probing log probe target) :
    Probing log' probe target :=
  let ⟨candidates, ping, hmem, hp⟩ := h
  ⟨candidates, ping, hsub hmem, hp⟩

theorem Woken.mono (hsub : log ⊆ log') (h : Woken log msg) : Woken log' msg :=
  let ⟨ack, hmem, hack⟩ := h
  ⟨ack, hsub hmem, hack⟩

theorem Asks.mono (hsub : log ⊆ log') (h : Asks log caller addr msg) :
    Asks log' caller addr msg := by
  cases caller with
  | ask probe =>
    obtain ⟨htype, target, hprobing, htarget⟩ := h
    exact ⟨htype, target, hprobing.mono hsub, htarget⟩
  | relay req =>
    obtain ⟨htype, haddr, hreq, hhandled⟩ := h
    exact ⟨htype, haddr, hreq, hsub hhandled⟩
  | _ => exact h

/-- A request is for what its caller wants. -/
theorem asks_of_mem (hg : Grounded (Backed home) log) (h : .requested caller addr msg ∈ log) :
    Asks log caller addr msg := by
  obtain ⟨before, after, hlog, hasks, -⟩ := hg.exists_of_mem h
  exact Asks.mono (hlog ▸ List.subset_append_left _ _) hasks

/-- What a node does besides requests. -/
theorem Sound.append (h : Sound home log p) (hacts : ∀ caller addr msg,
    .requested caller addr msg ∉ acts) : Sound home (log ++ acts) p where
  addr := h.addr
  seq caller addr msg hmem :=
    h.seq caller addr msg ((List.mem_append.mp hmem).resolve_right (hacts caller addr msg))
  requests q hq :=
    ⟨List.mem_append_left _ (h.requests q hq).1,
      fun hd => ((h.requests q hq).2 hd).mono (List.subset_append_left _ _)⟩
  probes pr hpr := by
    obtain ⟨hprobing, hacked⟩ := h.probes pr hpr
    refine ⟨hprobing.mono (List.subset_append_left _ _), fun ha => ?_⟩
    obtain ⟨addr, req, hmem⟩ := hacked ha
    exact ⟨addr, req, List.mem_append_left _ hmem⟩
  asks probe helper target hr := (h.asks probe helper target hr).mono (List.subset_append_left _ _)
  relays req hr := ⟨(h.relays req hr).1, List.mem_append_left _ (h.relays req hr).2⟩

/-- Coroutines that end. -/
theorem Sound.less (h : Sound home log p) (haddr : p'.node.addr = p.node.addr)
    (hseq : p.seqNo ≤ p'.seqNo) (hq : p'.requests ⊆ p.requests) (hpr : p'.probes ⊆ p.probes)
    (hr : p'.ready ⊆ p.ready) : Sound home log p' where
  addr := haddr.trans h.addr
  seq caller addr msg hmem := (h.seq caller addr msg hmem).trans hseq
  requests q hmem := h.requests q (hq hmem)
  probes pr hmem := h.probes pr (hpr hmem)
  asks probe helper target hmem := h.asks probe helper target (hr hmem)
  relays req hmem := h.relays req (hr hmem)

/-- Another node of the same address. -/
theorem Sound.node {r : Node} (h : Sound home log p) (haddr : r.addr = p.node.addr) :
    Sound home log { p with node := r } :=
  h.less haddr le_rfl (List.Subset.refl _) (List.Subset.refl _) (List.Subset.refl _)

theorem Sound.request (h : Sound home log p) (hg : Grounded (Backed home) log)
    (ha : Asks log caller addr ⟨type, p.seqNo + 1, p.node.me, targetAddr, updates⟩) :
    Sound home (log ++ (p.request caller addr type updates targetAddr).2)
        (p.request caller addr type updates targetAddr).1 ∧
      Grounded (Backed home) (log ++ (p.request caller addr type updates targetAddr).2) := by
  unfold Proc.request
  dsimp only
  split
  · have hless : Sound home log { p with seqNo := p.seqNo + 1 } :=
      h.less rfl (by simp) (by simp) (by simp) (by simp)
    refine ⟨⟨h.addr, fun caller' addr' msg' hmem => ?_, fun q hq => ?_, fun pr hpr => ?_,
      fun probe helper target hr => ?_, fun req hr => ?_⟩,
      hg.concat ⟨ha, h.addr, fun c a m hm => ?_⟩⟩
    · rcases List.mem_append.mp hmem with hmem | hmem
      · exact hless.seq caller' addr' msg' hmem
      · cases List.mem_singleton.mp hmem
        exact le_refl _
    · rcases List.mem_append.mp hq with hq | hq
      · obtain ⟨hmem, hdone⟩ := h.requests q hq
        exact ⟨List.mem_append_left _ hmem,
          fun hd => (hdone hd).mono (List.subset_append_left _ _)⟩
      · cases List.mem_singleton.mp hq
        exact ⟨List.mem_append_right _ List.mem_cons_self, fun hd => by cases hd⟩
    · obtain ⟨hprobing, hacked⟩ := h.probes pr hpr
      refine ⟨hprobing.mono (List.subset_append_left _ _), fun ha => ?_⟩
      obtain ⟨addr', req, hmem⟩ := hacked ha
      exact ⟨addr', req, List.mem_append_left _ hmem⟩
    · exact (h.asks probe helper target hr).mono (List.subset_append_left _ _)
    · exact ⟨(h.relays req hr).1, List.mem_append_left _ (h.relays req hr).2⟩
    · exact Int.lt_add_one_iff.mpr (h.seq c a m hm)
  · rw [List.append_nil]
    refine ⟨h.less (by rw [node_fail]) ?_ ?_ ?_ ?_, hg⟩
    · cases caller <;> exact Int.le.intro 1 rfl
    · cases caller <;> exact fun _ hq => hq
    · cases caller with
      | ask probe => exact fun _ hpr => List.mem_of_mem_filter hpr
      | _ => exact fun _ hpr => hpr
    · cases caller <;> exact fun _ hr => hr

theorem Sound.reply (h : Sound home log p) (hg : Grounded (Backed home) log)
    (ha : Answers log addr msg) (hm : msg.sender = p.node.me) :
    Sound home (log ++ (p.reply addr msg).2) p ∧
      Grounded (Backed home) (log ++ (p.reply addr msg).2) := by
  unfold Proc.reply
  dsimp only
  split
  · refine ⟨h.append (by simp), hg.concat ⟨ha, ?_⟩⟩
    rw [hm]
    exact h.addr
  · rw [List.append_nil]
    exact ⟨h, hg⟩

theorem Sound.settle (h : Sound home log p) {acked : Bool} (ha : acked = true →
    ∃ addr req, .returned (.ask probe) addr req true ∈ log) :
    Sound home log (p.settle probe acked) where
  addr := h.addr
  seq := h.seq
  requests := h.requests
  probes pr hpr := by
    obtain ⟨pr₀, hpr₀, rfl⟩ := List.mem_map.mp hpr
    obtain ⟨hprobing, hacked⟩ := h.probes pr₀ hpr₀
    split
    · rename_i hid
      refine ⟨hprobing, fun hor => ?_⟩
      rcases Bool.or_eq_true_iff.mp hor with hold | hnew
      · exact hacked hold
      · exact hid ▸ ha hnew
    · exact ⟨hprobing, hacked⟩
  asks := h.asks
  relays := h.relays

/-- What `_handle` does once it has merged the updates. -/
theorem Sound.handle (h : Sound home log { p with node := p.node.mergeAll msg.gossip })
    (hg : Grounded (Backed home) log) (hmem : .handled msg ∈ log) :
    Sound home (log ++ (p.handle msg).2) (p.handle msg).1 ∧
      Grounded (Backed home) (log ++ (p.handle msg).2) := by
  obtain ⟨type, seq, sender, targetAddr, updates⟩ := msg
  have hwake : type = .ack ∨ type = .joinAck → Sound home log
      { p with
        node := p.node.mergeAll (sender :: updates)
        requests := p.requests.map fun q =>
          if q.msg.seq = seq then { q with done := true } else q } := by
    intro htype
    refine ⟨h.addr, h.seq, fun q hq => ?_, h.probes, h.asks, h.relays⟩
    obtain ⟨q₀, hq₀, rfl⟩ := List.mem_map.mp hq
    obtain ⟨hreq, hdone⟩ := h.requests q₀ hq₀
    split
    · rename_i hseq
      exact ⟨hreq, fun _ => ⟨_, hmem, hseq.symm, htype⟩⟩
    · exact ⟨hreq, hdone⟩
  cases type with
  | ping =>
    have htake : Sound home log { p with
        node := (p.node.mergeAll (sender :: updates)).takeBroadcasts.2 } := h.node rfl
    exact htake.reply hg (.inl ⟨_, hmem, rfl, rfl, .inl ⟨rfl, rfl⟩⟩) rfl
  | join => exact h.reply hg (.inl ⟨_, hmem, rfl, rfl, .inr ⟨rfl, rfl⟩⟩) rfl
  | pingReq =>
    refine ⟨?_, (List.append_nil log).symm ▸ hg⟩
    refine (List.append_nil log).symm ▸
      ⟨h.addr, h.seq, h.requests, h.probes, fun probe helper target hr => ?_, fun req hr => ?_⟩
    · rcases List.mem_append.mp hr with hr | hr
      · exact h.asks probe helper target hr
      · cases List.mem_singleton.mp hr
    · rcases List.mem_append.mp hr with hr | hr
      · exact h.relays req hr
      · cases List.mem_singleton.mp hr
        exact ⟨rfl, hmem⟩
  | ack =>
    exact ⟨(List.append_nil log).symm ▸ hwake (.inl rfl), (List.append_nil log).symm ▸ hg⟩
  | joinAck =>
    exact ⟨(List.append_nil log).symm ▸ hwake (.inr rfl), (List.append_nil log).symm ▸ hg⟩

/-- What follows a `_request` that has returned `True`. -/
theorem Sound.acked (h : Sound home log p) (hg : Grounded (Backed home) log)
    (hret : .returned caller addr msg true ∈ log) :
    Sound home (log ++ (p.acked msg caller).2) (p.acked msg caller).1 ∧
      Grounded (Backed home) (log ++ (p.acked msg caller).2) := by
  obtain ⟨before, after, hlog, hreq, -⟩ := hg.exists_of_mem hret
  replace hreq : .requested caller addr msg ∈ log := hlog ▸ List.mem_append_left _ hreq
  cases caller with
  | join => exact (List.append_nil log).symm ▸ ⟨h, hg⟩
  | probe candidates target =>
    obtain ⟨htype, rfl⟩ := asks_of_mem hg hreq
    exact ⟨h.append (by simp [Proc.acked]), hg.concat
      ⟨⟨candidates, msg, hreq, htype, rfl⟩, .inl ⟨candidates, msg, hret, htype, rfl⟩⟩⟩
  | ask probe =>
    exact (List.append_nil log).symm ▸ ⟨h.settle fun _ => ⟨addr, msg, hret⟩, hg⟩
  | relay req => exact h.reply hg (.inr ⟨req, addr, msg, hret, rfl, rfl, rfl⟩) rfl
  | resurrect target =>
    exact (List.append_nil log).symm ▸ ⟨h.node (Node.addr_resurrect _ _), hg⟩

/-- What follows a `_request` that returns `False`. -/
theorem Sound.timedOut (h : Sound home log p) (hg : Grounded (Backed home) log)
    (hreq : .requested caller addr msg ∈ log) (hp : p.timedOut msg sample caller = some p') :
    Sound home log p' := by
  cases caller with
  | probe candidates target =>
    obtain ⟨-, hp⟩ := Option.ite_none_right_eq_some.mp hp
    obtain ⟨htype, rfl⟩ := asks_of_mem hg hreq
    have hprobing : Probing log msg.seq target := ⟨candidates, msg, hreq, htype, rfl⟩
    split at hp
    · obtain rfl := Option.some.inj hp
      exact h.node (Node.addr_mark _ _ _ _ _)
    · -- the helpers are asked later
      obtain rfl := Option.some.inj hp
      refine ⟨h.addr, h.seq, h.requests, fun pr hpr => ?_, fun probe helper target' hr => ?_,
        fun req hr => ?_⟩
      · rcases List.mem_append.mp hpr with hpr | hpr
        · exact h.probes pr hpr
        · cases List.mem_singleton.mp hpr
          exact ⟨hprobing, fun hf => by cases hf⟩
      · rcases List.mem_append.mp hr with hr | hr
        · exact h.asks probe helper target' hr
        · obtain ⟨_, -, heq⟩ := List.mem_map.mp hr
          cases heq
          exact hprobing
      · rcases List.mem_append.mp hr with hr | hr
        · exact h.relays req hr
        · obtain ⟨_, -, heq⟩ := List.mem_map.mp hr
          cases heq
  | ask probe =>
    obtain rfl := Option.some.inj hp
    exact h.settle fun hf => by cases hf
  | join | relay | resurrect =>
    obtain rfl := Option.some.inj hp
    exact h

/-- A node that starts at its own address. -/
def Event.At (home : String) : Event → Prop
  | .restart addr => addr = home
  | _ => True

/-- **A node acts on what it has done.** -/
theorem Sound.next {s : Proc × List Act} (h : Sound home log p) (hg : Grounded (Backed home) log)
    (he : e.At home) (hn : p.next e = some s) :
    Sound home (log ++ s.2) s.1 ∧ Grounded (Backed home) (log ++ s.2) := by
  cases moves hn with
  | join contact => exact h.request hg rfl
  | probe =>
    have htake : Sound home log { p with node := p.node.takeBroadcasts.2 } := h.node rfl
    exact htake.request hg ⟨rfl, rfl⟩
  | resurrect => exact h.request hg ⟨rfl, rfl⟩
  | @ask i probe helper target hr =>
    have hless : Sound home log { p with ready := p.ready.eraseIdx i } :=
      h.less rfl le_rfl (fun _ h => h) (fun _ h => h) (fun _ h => List.mem_of_mem_eraseIdx h)
    exact hless.request hg
      ⟨rfl, target, h.asks probe helper target (List.mem_of_getElem? hr), rfl⟩
  | @relay i req hr =>
    have hless : Sound home log { p with ready := p.ready.eraseIdx i } :=
      h.less rfl le_rfl (fun _ h => h) (fun _ h => h) (fun _ h => List.mem_of_mem_eraseIdx h)
    obtain ⟨htype, hhandled⟩ := h.relays req (List.mem_of_getElem? hr)
    exact hless.request hg ⟨rfl, rfl, htype, hhandled⟩
  | @acked i q hq hdone =>
    obtain ⟨hreq, hwoken⟩ := h.requests q (List.mem_of_getElem? hq)
    have hless : Sound home log { p with requests := p.requests.eraseIdx i } :=
      h.less rfl le_rfl (fun _ h => List.mem_of_mem_eraseIdx h) (fun _ h => h) (fun _ h => h)
    -- first the request returns
    have hg₁ : Grounded (Backed home) (log ++ [.returned q.caller q.addr q.msg true]) :=
      hg.concat ⟨hreq, fun _ => hwoken hdone⟩
    rw [List.append_cons]
    exact (hless.append (by simp)).acked hg₁ (List.mem_append_right _ List.mem_cons_self)
  | @timedOut i sample q p' hq hp' =>
    obtain ⟨hreq, -⟩ := h.requests q (List.mem_of_getElem? hq)
    have hless : Sound home log { p with requests := p.requests.eraseIdx i } :=
      h.less rfl le_rfl (fun _ h => List.mem_of_mem_eraseIdx h) (fun _ h => h) (fun _ h => h)
    exact ⟨(hless.timedOut hg hreq hp').append (by simp), hg.concat ⟨hreq, fun hf => by cases hf⟩⟩
  | @answered i pr hpr _ ha =>
    obtain ⟨hprobing, hacked⟩ := h.probes pr (List.mem_of_getElem? hpr)
    have hless : Sound home log { p with probes := p.probes.eraseIdx i } :=
      h.less rfl le_rfl (fun _ h => h) (fun _ h => List.mem_of_mem_eraseIdx h) (fun _ h => h)
    exact ⟨hless.append (by simp), hg.concat ⟨hprobing, .inr (hacked ha)⟩⟩
  | unanswered =>
    rw [List.append_nil]
    exact ⟨h.less (Node.addr_mark _ _ _ _ _) le_rfl (fun _ h => h)
      (fun _ h => List.mem_of_mem_eraseIdx h) (fun _ h => h), hg⟩
  | suspicionTimer =>
    rw [List.append_nil]
    exact ⟨h.node (Node.addr_suspicionTimer _ _), hg⟩
  | handle msg =>
    have h₁ : Sound home (log ++ [.handled msg]) { p with node := p.node.mergeAll msg.gossip } :=
      (h.node (Node.addr_mergeAll _ _)).append (by simp)
    rw [List.append_cons]
    exact h₁.handle (hg.concat trivial) (List.mem_append_right _ List.mem_cons_self)
  | restart addr =>
    rw [List.append_nil]
    exact ⟨h.less (he.trans h.addr.symm) le_rfl (fun _ h => List.mem_of_mem_filter h)
      (List.nil_subset _) (List.nil_subset _), hg⟩

end Proc

end Swim
