/-
Acks between SWIM nodes (`Node._request`, `Node._relay_ping`, `Node._handle`).

* `Net` — where the nodes are bound, and where a datagram to an address gets to;
* `World.step` — nodes that run, and datagrams that arrive late, often, in any order or
  never; the log has all that the nodes have done;
* `World.Honest` — what the log says of itself: what each node has done is backed by what
  it did before, and what it has handled was sent to it;
* `World.Answered`, `World.Relayed` — a ping that its target has answered, and a request
  to a helper that ended so;
* **`World.no_false_acks`** — what returns `True`, and what keeps a probe from marking its
  target, is such an answer.
-/
import Dssd.SwimRequests
import Mathlib.Logic.Function.Basic

open Addr (formatAddr splitAddr)
open Function (update)

namespace Swim

/-- The sockets of some nodes, and which node gets what is sent to a socket address.  The address
of each node leads to it. -/
structure Net (ι : Type) where
  sock : ι → String × ℤ
  bound : String × ℤ → Option ι
  reach : ∀ n, (splitAddr (formatAddr (sock n).1 (sock n).2)).bind bound = some n

namespace Net

variable {ι : Type} (net : Net ι)

/-- `_bind_addr` -/
def addr (n : ι) : String := formatAddr (net.sock n).1 (net.sock n).2

/-- The node at an address. -/
def at? (addr : String) : Option ι := (splitAddr addr).bind net.bound

@[simp] theorem at?_addr (n : ι) : net.at? (net.addr n) = some n := net.reach n

end Net

/-- The nodes, and all that they have done. -/
structure World (ι : Type) where
  procs : ι → Proc
  log : List (ι × Act)

namespace World

variable {ι : Type} [DecidableEq ι]

inductive Event (ι : Type)
  /-- A node takes a step of its own. -/
  | act (n : ι) (e : Proc.Event)
  /-- The datagram that was sent in place `k` of the log arrives. -/
  | deliver (k : ℕ)

def init (net : Net ι) (ids : ι → String) (indirectPingCount : ι → ℕ) : World ι :=
  ⟨fun n => .fresh (ids n) (net.addr n) (indirectPingCount n), []⟩

def act (w : World ι) (n : ι) (e : Proc.Event) : Option (World ι) := do
  let (p, acts) ← (w.procs n).next e
  return ⟨update w.procs n p, w.log ++ acts.map (n, ·)⟩

def step (net : Net ι) (w : World ι) : Event ι → Option (World ι)
  -- nodes handle what arrives, and keep their addresses
  | .act _ (.handle _) => none
  | .act n (.restart addr) => if addr = net.addr n then w.act n (.restart addr) else none
  | .act n e => w.act n e
  | .deliver k => do
    let (_, act) ← w.log[k]?
    let (dest, msg) ← act.sent
    let n ← net.at? dest
    w.act n (.handle msg)

/-! ### What is claimed -/

/-- The node at this address has handled the ping, and answered it. -/
def Answered (net : Net ι) (log : List (ι × Act)) (n : ι) (caller : Caller) (addr : String)
    (ping : Message) : Prop :=
  ∃ k ack, net.at? addr = some k ∧ ack.type = .ack ∧ ack.seq = ping.seq ∧
    [(n, .requested caller addr ping), (k, .handled ping),
      (k, .replied ping.sender.addr ack)].Sublist log

/-- The helper at this address has handled the request, and has then sent a ping to the target,
which has handled and answered it. -/
def Relayed (net : Net ι) (log : List (ι × Act)) (n : ι) (caller : Caller) (addr : String)
    (req : Message) : Prop :=
  ∃ h k ping ack, net.at? addr = some h ∧ net.at? req.targetAddr = some k ∧ ping.type = .ping ∧
    ack.type = .ack ∧ ack.seq = ping.seq ∧
    [(n, .requested caller addr req), (h, .handled req),
      (h, .requested (.relay req) req.targetAddr ping), (k, .handled ping),
      (k, .replied ping.sender.addr ack)].Sublist log

/-- What must have happened before a request returns `True`, and before a probe returns without a
`_mark`. -/
def Earned (net : Net ι) (before : List (ι × Act)) : ι × Act → Prop
  | (n, .returned caller addr msg true) =>
    (msg.type = .ping → Answered net before n caller addr msg) ∧
      (msg.type = .pingReq → Relayed net before n caller addr msg)
  | (n, .answered probe target) =>
    (∃ candidates ping, ping.type = .ping ∧ ping.seq = probe ∧
        Answered net before n (.probe candidates target) target.addr ping) ∨
      ∃ addr req, req.targetAddr = target.addr ∧ Relayed net before n (.ask probe) addr req
  | _ => True

/-! ### Logs of honest nodes -/

/-- What a node handles was sent to it. -/
def Arrived (net : Net ι) (before : List (ι × Act)) : ι × Act → Prop
  | (n, .handled msg) =>
    ∃ m act dest, (m, act) ∈ before ∧ act.sent = some (dest, msg) ∧ net.at? dest = some n
  | _ => True

structure Honest (net : Net ι) (log : List (ι × Act)) : Prop where
  backed : ∀ n, Grounded (Proc.Backed (net.addr n)) (own n log)
  arrived : Grounded (Arrived net) log

variable {net : Net ι} {w w' : World ι} {log log' : List (ι × Act)} {n k : ι} {act : Act}
  {caller caller' : Caller} {addr addr' dest : String} {msg msg' ack : Message}

theorem Honest.before (h : Honest net (log ++ log')) : Honest net log where
  backed n := by
    have := h.backed n
    rw [own_append] at this
    exact this.before
  arrived := h.arrived.before

/-- The grounds of an entry. -/
theorem Honest.exists_of_mem (h : Honest net log) (hmem : (n, act) ∈ log) :
    ∃ before after, log = before ++ (n, act) :: after ∧ Honest net before ∧
      Proc.Backed (net.addr n) (own n before) act ∧ Arrived net before (n, act) := by
  obtain ⟨before, after, rfl⟩ := List.append_of_mem hmem
  exact ⟨before, after, rfl, h.before, (h.backed n).of_own, h.arrived before _ after rfl⟩

theorem Honest.sender (h : Honest net log) (hmem : (n, act) ∈ log)
    (hs : act.sent = some (dest, msg)) : msg.sender.addr = net.addr n := by
  obtain ⟨before, after, -, -, hbacked, -⟩ := h.exists_of_mem hmem
  cases act with
  | requested caller addr msg' =>
    obtain ⟨rfl, rfl⟩ := Prod.mk.inj (Option.some.inj hs)
    exact hbacked.2.1
  | replied addr msg' =>
    obtain ⟨rfl, rfl⟩ := Prod.mk.inj (Option.some.inj hs)
    exact hbacked.2
  | _ => cases hs

/-- Acks are answers, and nothing else is. -/
theorem Honest.sent_cases (h : Honest net log) (hmem : (n, act) ∈ log)
    (hs : act.sent = some (dest, msg)) :
    if msg.type = .ack ∨ msg.type = .joinAck then act = .replied dest msg
    else ∃ caller, act = .requested caller dest msg := by
  obtain ⟨before, after, -, -, hbacked, -⟩ := h.exists_of_mem hmem
  cases act with
  | requested caller addr msg' =>
    obtain ⟨rfl, rfl⟩ := Prod.mk.inj (Option.some.inj hs)
    rw [if_neg]
    · exact ⟨caller, rfl⟩
    · have hasks := hbacked.1
      unfold Proc.Asks at hasks
      cases caller with
      | join => simp [hasks]
      | _ => simp [hasks.1]
  | replied addr msg' =>
    obtain ⟨rfl, rfl⟩ := Prod.mk.inj (Option.some.inj hs)
    rw [if_pos]
    rcases hbacked.1 with ⟨_, -, -, -, ⟨-, ht⟩ | ⟨-, ht⟩⟩ | ⟨_, _, _, -, -, -, ht⟩
    · exact .inl ht
    · exact .inr ht
    · exact .inl ht
  | _ => cases hs

/-- A node tells its requests apart by their sequence numbers. -/
theorem Honest.request_unique (h : Honest net log) (hmem : (n, .requested caller addr msg) ∈ log)
    (hmem' : (n, .requested caller' addr' msg') ∈ log) (hseq : msg'.seq = msg.seq) :
    caller' = caller ∧ addr' = addr ∧ msg' = msg := by
  let key : Act → Option ℤ := fun
    | .requested _ _ msg => some msg.seq
    | _ => none
  have heq := (h.backed n).unique (f := key) (k := msg.seq) (fun before a hb hk b hbmem => ?_)
    (mem_own.mpr hmem) (mem_own.mpr hmem') rfl (congrArg some hseq)
  · cases heq
    exact ⟨rfl, rfl, rfl⟩
  · cases a with
    | requested c d m =>
      cases b with
      | requested c' d' m' =>
        rw [← hk]
        exact fun h => (hb.2.2 c' d' m' hbmem).ne (Option.some.inj h)
      | _ => exact fun h => by cases h
    | _ => cases hk

/-- A message that is no ack comes from a request of the node at the sender's address. -/
theorem Honest.sent_of_handled (h : Honest net log) (hmem : (k, .handled msg) ∈ log)
    (htype : ¬ (msg.type = .ack ∨ msg.type = .joinAck)) : ∃ n caller addr,
      [(n, .requested caller addr msg), (k, .handled msg)].Sublist log ∧
        net.at? addr = some k ∧ net.at? msg.sender.addr = some n := by
  obtain ⟨before, after, rfl, hbefore, -, n, act, dest, hsent, hs, hat⟩ := h.exists_of_mem hmem
  have hcases := hbefore.sent_cases hsent hs
  rw [if_neg htype] at hcases
  obtain ⟨caller, rfl⟩ := hcases
  refine ⟨n, caller, dest, sublist_concat (List.singleton_sublist.mpr hsent), hat, ?_⟩
  rw [hbefore.sender hsent hs]
  exact net.at?_addr n

/-- An ack that woke a request answers that request, or a ping that was relayed for it. -/
theorem Honest.woken (h : Honest net log) (hreq : (n, .requested caller addr msg) ∈ log)
    (hack : (n, .handled ack) ∈ log) (hseq : ack.seq = msg.seq)
    (htype : ack.type = .ack ∨ ack.type = .joinAck) :
    (msg.type ≠ .pingReq ∧ ∃ k, net.at? addr = some k ∧
        (msg.type = .ping → ack.type = .ack) ∧
        [(n, .requested caller addr msg), (k, .handled msg),
          (k, .replied msg.sender.addr ack)].Sublist log) ∨
      (msg.type = .pingReq ∧ ∃ k dest ping, net.at? addr = some k ∧
        (k, .returned (.relay msg) dest ping true) ∈ log) := by
  obtain ⟨before, after, hlog, hbefore, -, k, act, dest, hsent, hs, hat⟩ := h.exists_of_mem hack
  have hcases := hbefore.sent_cases hsent hs
  rw [if_pos htype] at hcases
  subst hcases
  obtain ⟨before', after', hlog', hbefore', ⟨hans, -⟩, -⟩ := hbefore.exists_of_mem hsent
  -- the node at the sender's address sent the message with this sequence number: it is this node
  have horigin : ∀ {l : List (ι × Act)} {req : Message}, l ⊆ log →
      (k, .handled req) ∈ l → Honest net l → ¬ (req.type = .ack ∨ req.type = .joinAck) →
      dest = req.sender.addr → ack.seq = req.seq → req = msg ∧ net.at? addr = some k ∧
        [(n, .requested caller addr msg), (k, .handled msg)].Sublist l := by
    intro l req hsub hmem hl hreqtype hdest hreqseq
    obtain ⟨n', caller', addr', hchain, hat', hsender⟩ := hl.sent_of_handled hmem hreqtype
    rw [← hdest, hat] at hsender
    obtain rfl := Option.some.inj hsender
    have hmem' := hsub (hchain.subset List.mem_cons_self)
    obtain ⟨rfl, rfl, rfl⟩ := h.request_unique hreq hmem' (hreqseq.symm.trans hseq)
    exact ⟨rfl, hat', hchain⟩
  have hsub : before' ⊆ log := by
    rw [hlog, hlog']
    exact fun _ hx => List.mem_append_left _ (List.mem_append_left _ hx)
  rcases hans with ⟨req, hhandled, hdest, hreqseq, htypes⟩ |
    ⟨req, dest', ping, hret, hdest, hreqseq, -⟩
  · have hreqtype : ¬ (req.type = .ack ∨ req.type = .joinAck) := by
      rcases htypes with ⟨ht, -⟩ | ⟨ht, -⟩
      · simp [ht]
      · simp [ht]
    obtain ⟨rfl, hat', hchain⟩ :=
      horigin hsub (mem_own.mp hhandled) hbefore' hreqtype hdest hreqseq
    refine .inl ⟨?_, k, hat', fun hping => ?_, ?_⟩
    · rcases htypes with ⟨ht, -⟩ | ⟨ht, -⟩ <;> simp [ht]
    · rcases htypes with ⟨-, ht⟩ | ⟨ht, -⟩
      · exact ht
      · rw [hping] at ht
        cases ht
    · subst hdest
      rw [hlog, hlog']
      exact (sublist_concat hchain).trans (List.sublist_append_left _ _)
  · -- the relayed ping was requested for a request that was handled
    have hret' := mem_own.mp hret
    obtain ⟨b, c, hb, hbhonest, ⟨hping, -⟩, -⟩ := hbefore'.exists_of_mem hret'
    have hasks := Proc.asks_of_mem (hbhonest.backed k) hping
    obtain ⟨-, -, hreqtype, hhandled⟩ := hasks
    obtain ⟨rfl, hat', -⟩ := horigin (fun _ hx => hsub (hb ▸ List.mem_append_left _ hx))
      (mem_own.mp hhandled) hbhonest (by simp [hreqtype]) hdest hreqseq
    exact .inr ⟨hreqtype, k, dest', ping, hat', hsub hret'⟩

/-- A `_request` for a `PING` returns `True` for an answer of the node it was sent to. -/
theorem Honest.answered (h : Honest net log)
    (hb : Proc.Backed (net.addr n) (own n log) (.returned caller addr msg true))
    (hping : msg.type = .ping) : Answered net log n caller addr msg := by
  obtain ⟨hreq, hwoken⟩ := hb
  obtain ⟨ack, hack, hseq, htype⟩ := hwoken rfl
  rcases h.woken (mem_own.mp hreq) (mem_own.mp hack) hseq htype with
    ⟨-, k, hat, hacktype, hchain⟩ | ⟨hreqtype, -⟩
  · exact ⟨k, ack, hat, hacktype hping, hseq, hchain⟩
  · rw [hping] at hreqtype
    cases hreqtype

/-- One for a `PING_REQ`, for an answer to the ping of the helper. -/
theorem Honest.relayed (h : Honest net log)
    (hb : Proc.Backed (net.addr n) (own n log) (.returned caller addr msg true))
    (hpingReq : msg.type = .pingReq) : Relayed net log n caller addr msg := by
  obtain ⟨hreq, hwoken⟩ := hb
  obtain ⟨ack₀, hack, hseq, htype⟩ := hwoken rfl
  rcases h.woken (mem_own.mp hreq) (mem_own.mp hack) hseq htype with
    ⟨hne, -⟩ | ⟨-, k, dest, ping, hat, hret⟩
  · exact absurd hpingReq hne
  · obtain ⟨before, after, hlog, hbefore, hbacked, -⟩ := h.exists_of_mem hret
    obtain ⟨hpingtype, rfl, -, -⟩ := Proc.asks_of_mem (hbefore.backed k) hbacked.1
    obtain ⟨target, ack, htarget, hacktype, hackseq, hchain⟩ := hbefore.answered hbacked hpingtype
    -- the ping was sent for the request, which the helper had handled
    obtain ⟨r₁, r₂, hr, hsent, hrest⟩ := List.cons_sublist_iff.mp hchain
    obtain ⟨b, c, hb, hbhonest, ⟨hasks, -⟩, -⟩ := (hr ▸ hbefore).before.exists_of_mem hsent
    obtain ⟨-, -, -, hhandled⟩ := hasks
    obtain ⟨n', caller', addr', hchain', -, hsender⟩ :=
      hbhonest.sent_of_handled (mem_own.mp hhandled) (by simp [hpingReq])
    rw [h.sender (mem_own.mp hreq) rfl, net.at?_addr] at hsender
    obtain rfl := Option.some.inj hsender
    have hsub : b ⊆ log := by
      rw [hlog, hr, hb]
      exact fun _ hx => List.mem_append_left _ (List.mem_append_left _ (List.mem_append_left _ hx))
    obtain ⟨rfl, rfl, -⟩ := h.request_unique (mem_own.mp hreq)
      (hsub (hchain'.subset List.mem_cons_self)) rfl
    refine ⟨k, target, ping, ack, hat, htarget, hpingtype, hacktype, hackseq, ?_⟩
    rw [hlog, hr, hb]
    exact ((sublist_concat hchain').append hrest).trans (List.sublist_append_left _ _)

/-- What returns `True`, and what spares a target, is earned. -/
theorem Honest.earned (h : Honest net log) : Grounded (Earned net) log := by
  intro before x after hlog
  obtain ⟨n, act⟩ := x
  subst hlog
  have hbefore := h.before
  have hbacked := (h.backed n).of_own
  cases act with
  | returned caller addr msg acked =>
    cases acked with
    | false => trivial
    | true => exact ⟨hbefore.answered hbacked, hbefore.relayed hbacked⟩
  | answered probe target =>
    obtain ⟨⟨candidates, ping, hprobe, -, hseq⟩, hret⟩ := hbacked
    rcases hret with ⟨candidates', ping', hret, htype, hseq'⟩ | ⟨addr, req, hret⟩
    · obtain ⟨b, c, hb, hbhonest, hbacked, -⟩ := hbefore.exists_of_mem (mem_own.mp hret)
      obtain ⟨k, ack, hat, hacktype, hackseq, hchain⟩ := hbhonest.answered hbacked htype
      refine .inl ⟨candidates', ping', htype, hseq', k, ack, hat, hacktype, hackseq, ?_⟩
      exact hchain.trans (hb ▸ List.sublist_append_left _ _)
    · obtain ⟨b, c, hb, hbhonest, hbacked, -⟩ := hbefore.exists_of_mem (mem_own.mp hret)
      obtain ⟨htype, target', hprobing', htarget⟩ := Proc.asks_of_mem (hbhonest.backed n) hbacked.1
      obtain ⟨candidates', ping', hprobe', -, hseq'⟩ := hprobing'
      -- the helper was asked about the target of this probe
      have hmem' : (n, Act.requested (.probe candidates' target') target'.addr ping') ∈ before :=
        hb ▸ List.mem_append_left _ (mem_own.mp hprobe')
      obtain ⟨hcaller, -, -⟩ := hbefore.request_unique (mem_own.mp hprobe) hmem'
        (hseq'.trans hseq.symm)
      cases hcaller
      obtain ⟨h, k, ping'', ack, hat, hat', hping, hacktype, hackseq, hchain⟩ :=
        hbhonest.relayed hbacked htype
      refine .inr ⟨addr, req, htarget, h, k, ping'', ack, hat, hat', hping, hacktype, hackseq, ?_⟩
      exact hchain.trans (hb ▸ List.sublist_append_left _ _)
  | _ => trivial

/-! ### Runs -/

/-- The nodes are what the log says, and the log is one of honest nodes. -/
structure Sound (net : Net ι) (w : World ι) : Prop where
  procs : ∀ n, (w.procs n).Sound (net.addr n) (own n w.log)
  honest : Honest net w.log

theorem sound_init (net : Net ι) (ids : ι → String) (indirectPingCount : ι → ℕ) :
    (init net ids indirectPingCount).Sound net where
  procs n := by
    refine ⟨rfl, fun _ _ _ h => ?_, fun _ h => ?_, fun _ h => ?_, fun _ _ _ h => ?_, fun _ h => ?_⟩
    all_goals cases h
  honest := ⟨fun _ => .nil, .nil⟩

/-- A step of a node that keeps its address and handles only what was sent to it. -/
theorem sound_act (h : w.Sound net) {e : Proc.Event} (hs : w.act n e = some w')
    (he : e.At (net.addr n))
    (hhandle : ∀ msg, e = .handle msg → Arrived net w.log (n, .handled msg)) : w'.Sound net := by
  obtain ⟨⟨p, acts⟩, hnext, hs⟩ := Option.bind_eq_some_iff.mp hs
  obtain rfl := Option.some.inj hs
  obtain ⟨hproc, hbacked⟩ := (h.procs n).next (h.honest.backed n) he hnext
  refine ⟨fun m => ?_, fun m => ?_, h.honest.arrived.append fun before x after hacts => ?_⟩
  · by_cases hm : m = n
    · subst hm
      rw [own_append, own_map_self]
      show (update w.procs m p m).Sound _ _
      rw [Function.update_self]
      exact hproc
    · rw [own_append, own_map_ne (Ne.symm hm), List.append_nil]
      show (update w.procs n p m).Sound _ _
      rw [Function.update_of_ne hm]
      exact h.procs m
  · by_cases hm : m = n
    · subst hm
      rw [own_append, own_map_self]
      exact hbacked
    · rw [own_append, own_map_ne (Ne.symm hm), List.append_nil]
      exact h.honest.backed m
  · have hmem : x ∈ acts.map (n, ·) := hacts ▸ by simp
    obtain ⟨act, hact, rfl⟩ := List.mem_map.mp hmem
    cases act with
    | handled msg =>
      obtain ⟨m, act, dest, hsent, harrive⟩ := hhandle msg (Proc.handled_next hnext hact)
      exact ⟨m, act, dest, List.mem_append_left _ hsent, harrive⟩
    | _ => trivial

theorem Sound.step (h : w.Sound net) {e : Event ι} (hs : w.step net e = some w') :
    w'.Sound net := by
  cases e with
  | act n e =>
    cases e with
    | handle msg => cases hs
    | restart addr =>
      obtain ⟨haddr, hs⟩ := Option.ite_none_right_eq_some.mp hs
      exact sound_act h hs haddr fun _ h => by cases h
    | _ => exact sound_act h hs trivial fun _ h => by cases h
  | deliver k =>
    obtain ⟨⟨m, act⟩, hk, hs⟩ := Option.bind_eq_some_iff.mp hs
    obtain ⟨⟨dest, msg⟩, hsent, hs⟩ := Option.bind_eq_some_iff.mp hs
    obtain ⟨n, hat, hs⟩ := Option.bind_eq_some_iff.mp hs
    refine sound_act h hs trivial fun msg' heq => ?_
    cases heq
    exact ⟨m, act, dest, List.mem_of_getElem? hk, hsent, hat⟩

/-- **No false acks.**  However datagrams are lost, delayed, reordered and duplicated: when a
`_request` for a `PING` returns `True`, the node at the address has handled that ping; when one for
a `PING_REQ` does, the helper has handled it, and has then sent a ping to the target, which has
handled that; and a probe returns without a `_mark` only if its target has answered a ping of this
node, or of a helper that was asked by this probe. -/
theorem no_false_acks (net : Net ι) (ids : ι → String) (indirectPingCount : ι → ℕ)
    (es : List (Event ι)) :
    Run.Always (step net) (fun w => Grounded (Earned net) w.log) (init net ids indirectPingCount)
      es :=
  Run.always_of_inv (fun _ _ _ hs h => Sound.step h hs) (fun _ h => h.honest.earned)
    (sound_init net ids indirectPingCount) es

end World

end Swim
