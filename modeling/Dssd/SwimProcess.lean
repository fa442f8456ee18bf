/-
A running SWIM node (`swim.py`): its messages and its coroutines.

A `Proc` is a started `Node` with its `_seq_no` and the coroutines in progress: the
`_request`s, which are the entries of `_waiters`, the probes that wait for their
helpers, and what has been spawned and has not run yet.  A step is what happens from
one wait to the next.  When a wait ends and what `random` picks is left open, and so is
how many probes are in progress at a time.

* `Message` — the wire format;
* `Act` — what a step does: a message is sent or handled, a `_request` or a probe returns;
* `Proc.next` — the steps; `Proc.moves` — what each of them does.
-/
import Dssd.Addr
import Dssd.Runs
import Dssd.SwimBroadcasts
import Dssd.SwimTimers
import Mathlib.Data.List.Perm.Subperm

open Addr (splitAddr)

namespace Swim

/-! ### Messages -/

inductive MsgType
  | ping
  | pingReq
  | ack
  | join
  | joinAck
  deriving DecidableEq, Repr

structure Message where
  type : MsgType
  seq : ℤ
  sender : Member
  targetAddr : String
  updates : List Member
  deriving DecidableEq

/-- The updates that the receiver merges, in this order. -/
def Message.gossip (msg : Message) : List Member := msg.sender :: msg.updates

/-! ### Coroutines -/

/-- What awaits a `_request`. -/
inductive Caller
  | join
  | probe (candidates : List Member) (target : Member)
  /-- One of the helpers that the probe with this sequence number asks. -/
  | ask (probe : ℤ)
  | relay (req : Message)
  | resurrect (target : Member)
  deriving DecidableEq

/-- A `_request` that waits for its ack; `done` says whether its waiter has a result. -/
structure Request where
  caller : Caller
  addr : String
  msg : Message
  done : Bool
  deriving DecidableEq

/-- A `_probe_once` that waits for the answers of its helpers, named by the sequence number of its
own ping. -/
structure Probe where
  id : ℤ
  target : Member
  pending : ℕ
  acked : Bool
  deriving DecidableEq

/-- A coroutine that has been spawned and not run yet. -/
inductive Ready
  | ask (probe : ℤ) (helper target : Member)
  | relay (req : Message)
  deriving DecidableEq

structure Proc where
  node : Node
  /-- `cfg.indirect_ping_count` -/
  indirectPingCount : ℕ
  seqNo : ℤ
  requests : List Request
  probes : List Probe
  ready : List Ready

inductive Act
  /-- `_request` has sent its message. -/
  | requested (caller : Caller) (addr : String) (msg : Message)
  /-- `_reply` or `_relay_ping` has sent an answer. -/
  | replied (addr : String) (msg : Message)
  | handled (msg : Message)
  /-- A `_request` returns. -/
  | returned (caller : Caller) (addr : String) (msg : Message) (acked : Bool)
  /-- `_probe_once` returns without a `_mark`. -/
  | answered (probe : ℤ) (target : Member)
  deriving DecidableEq

/-- The datagrams that are sent. -/
def Act.sent : Act → Option (String × Message)
  | .requested _ addr msg => some (addr, msg)
  | .replied addr msg => some (addr, msg)
  | _ => none

namespace Proc

/-- A node that has just been started. -/
def fresh (id addr : String) (indirectPingCount : ℕ) : Proc :=
  ⟨Node.fresh id addr, indirectPingCount, 0, [], [], []⟩

/-- What follows from an exception of a `_request`: `gather` passes it on to the probe. -/
def fail (p : Proc) : Caller → Proc
  | .ask probe => { p with probes := p.probes.filter fun pr => pr.id ≠ probe }
  | _ => p

/-- `_request(addr, msg_type, timeout, updates, target_addr)` up to its wait; `_send` raises if
`split_addr` does. -/
def request (p : Proc) (caller : Caller) (addr : String) (type : MsgType) (updates : List Member)
    (targetAddr : String) : Proc × List Act :=
  let p := { p with seqNo := p.seqNo + 1 }
  let msg : Message := ⟨type, p.seqNo, p.node.me, targetAddr, updates⟩
  if (splitAddr addr).isSome then
    ({ p with requests := p.requests ++ [⟨caller, addr, msg, false⟩] },
      [.requested caller addr msg])
  else (p.fail caller, [])

/-- `_send` of an answer -/
def reply (p : Proc) (addr : String) (msg : Message) : Proc × List Act :=
  (p, if (splitAddr addr).isSome then [.replied addr msg] else [])

/-- The answer of a helper to a probe. -/
def settle (p : Proc) (probe : ℤ) (acked : Bool) : Proc :=
  { p with
    probes := p.probes.map fun pr =>
      if pr.id = probe then { pr with pending := pr.pending - 1, acked := pr.acked || acked }
      else pr }

def mark (p : Proc) (id : String) : Proc := { p with node := p.node.mark id .suspect .alive none }

/-- What follows a `_request` that returns `True`. -/
def acked (p : Proc) (msg : Message) : Caller → Proc × List Act
  | .join => (p, [])
  | .probe _ target => (p, [.answered msg.seq target])
  | .ask probe => (p.settle probe true, [])
  | .relay req => p.reply req.sender.addr ⟨.ack, req.seq, p.node.me, "", []⟩
  | .resurrect target => ({ p with node := p.node.resurrect target.id }, [])

/-- `random.sample(helpers, min(cfg.indirect_ping_count, len(helpers)))`, where the helpers are the
candidates other than the target. -/
def Sample (p : Proc) (candidates : List Member) (target : Member) (sample : List Member) : Prop :=
  let helpers := candidates.filter fun m => m.id ≠ target.id
  sample.length = min p.indirectPingCount helpers.length ∧ sample.Subperm helpers

instance (p : Proc) (candidates : List Member) (target : Member) (sample : List Member) :
    Decidable (p.Sample candidates target sample) := by
  unfold Sample
  infer_instance

/-- What follows a `_request` that returns `False`. -/
def timedOut (p : Proc) (msg : Message) (sample : List Member) : Caller → Option Proc
  | .probe candidates target =>
    if p.Sample candidates target sample then
      -- `gather` of nothing does not wait
      if sample = [] then some (p.mark target.id)
      else
        some { p with
          probes := p.probes ++ [⟨msg.seq, target, sample.length, false⟩]
          ready := p.ready ++ sample.map fun helper => .ask msg.seq helper target }
    else none
  | .ask probe => some (p.settle probe false)
  | _ => some p

/-- `_handle(msg)` -/
def handle (p : Proc) (msg : Message) : Proc × List Act :=
  let p := { p with node := p.node.mergeAll msg.gossip }
  match msg.type with
  | .ping =>
    let (updates, node) := p.node.takeBroadcasts
    let p := { p with node }
    p.reply msg.sender.addr ⟨.ack, msg.seq, p.node.me, "", updates⟩
  | .join => p.reply msg.sender.addr ⟨.joinAck, msg.seq, p.node.me, "", p.node.members.values⟩
  | .pingReq => ({ p with ready := p.ready ++ [.relay msg] }, [])
  | .ack | .joinAck =>
    ({ p with
        requests := p.requests.map fun q =>
          if q.msg.seq = msg.seq then { q with done := true } else q },
      [])

inductive Event
  | join (contact : String)
  /-- `_probe_once` picks the candidate in place `i`. -/
  | probe (i : ℕ)
  /-- `_resurrect_once` picks the `DEAD` member in place `i`. -/
  | resurrect (i : ℕ)
  /-- The coroutine in place `i` runs. -/
  | start (i : ℕ)
  /-- The `_request` in place `i` returns `True`. -/
  | acked (i : ℕ)
  /-- The `_request` in place `i` returns `False`; a probe picks its helpers. -/
  | timedOut (i : ℕ) (sample : List Member)
  /-- The probe in place `i` has heard of all its helpers. -/
  | gathered (i : ℕ)
  | suspicionTimer (k : ℕ)
  | handle (msg : Message)
  /-- `stop()`, which cancels all tasks, and `start()` at this address. -/
  | restart (addr : String)

/-- One step and what it does. -/
def next (p : Proc) : Event → Option (Proc × List Act)
  | .join contact => some (p.request .join contact .join [] "")
  | .probe i => do
    let candidates := p.node.members.values.filter fun m => m.state ≠ .dead
    let target ← candidates[i]?
    let (updates, node) := p.node.takeBroadcasts
    some ({ p with node }.request (.probe candidates target) target.addr .ping updates "")
  | .resurrect i => do
    let target ← (p.node.members.values.filter fun m => m.state = .dead)[i]?
    some (p.request (.resurrect target) target.addr .ping [] "")
  | .start i => do
    let ready ← p.ready[i]?
    let p := { p with ready := p.ready.eraseIdx i }
    match ready with
    | .ask probe helper target => some (p.request (.ask probe) helper.addr .pingReq [] target.addr)
    | .relay req => some (p.request (.relay req) req.targetAddr .ping [] "")
  | .acked i => do
    let q ← p.requests[i]?
    if q.done then
      let (p, acts) := { p with requests := p.requests.eraseIdx i }.acked q.msg q.caller
      some (p, .returned q.caller q.addr q.msg true :: acts)
    else none
  | .timedOut i sample => do
    let q ← p.requests[i]?
    let p ← { p with requests := p.requests.eraseIdx i }.timedOut q.msg sample q.caller
    some (p, [.returned q.caller q.addr q.msg false])
  | .gathered i => do
    let pr ← p.probes[i]?
    let p := { p with probes := p.probes.eraseIdx i }
    if pr.pending = 0 then
      if pr.acked then some (p, [.answered pr.id pr.target]) else some (p.mark pr.target.id, [])
    else none
  | .suspicionTimer k =>
    if k < p.node.timers.length then some ({ p with node := p.node.suspicionTimer k }, []) else none
  | .handle msg =>
    let (p, acts) := p.handle msg
    some (p, .handled msg :: acts)
  | .restart addr =>
    some ({ p with
      node := { p.node with addr, timers := [] }
      requests := p.requests.filter fun q => q.caller = .join
      probes := []
      ready := [] }, [])

def step (p : Proc) (e : Event) : Option Proc := (p.next e).map Prod.fst

end Proc

/-! ### What steps do to the node -/

/-- The methods that change a node. -/
inductive Node.Moves (r : Node) : Node → Prop
  | merge (update : Member) : Moves r (r.merge update)
  | mark (id : String) (new_state from_state : State) (incarnation : Option ℤ) :
      Moves r (r.mark id new_state from_state incarnation)
  | suspicionTimer (k : ℕ) : Moves r (r.suspicionTimer k)
  | resurrect (id : String) : Moves r (r.resurrect id)
  | take : Moves r r.takeBroadcasts.2
  | restart (addr : String) : Moves r { r with addr, timers := [] }

open Relation (ReflTransGen)

theorem Node.moves_mergeAll (r : Node) (updates : List Member) :
    ReflTransGen Node.Moves r (r.mergeAll updates) := by
  unfold mergeAll
  induction updates generalizing r with
  | nil => exact .refl
  | cons u updates ih => exact .head (.merge u) (ih (r.merge u))

namespace Proc

variable {p p' q : Proc} {e : Event} {acts : List Act} {caller : Caller}
  {addr dest targetAddr : String} {type : MsgType} {updates sample : List Member}
  {msg : Message} {act : Act}

@[simp] theorem node_fail (p : Proc) (caller : Caller) : (p.fail caller).node = p.node := by
  cases caller <;> rfl

@[simp] theorem node_request : (p.request caller addr type updates targetAddr).1.node = p.node := by
  unfold request
  dsimp only
  split
  · rfl
  · exact node_fail _ _

/-- What a request sends. -/
theorem mem_request (h : act ∈ (p.request caller addr type updates targetAddr).2) :
    act = .requested caller addr ⟨type, p.seqNo + 1, p.node.me, targetAddr, updates⟩ := by
  unfold request at h
  dsimp only at h
  split at h
  · exact List.mem_singleton.mp h
  · cases h

theorem mem_reply (h : act ∈ (p.reply addr msg).2) : act = .replied addr msg := by
  unfold reply at h
  dsimp only at h
  split at h
  · exact List.mem_singleton.mp h
  · cases h

/-- What a step does. -/
inductive Moves (p : Proc) : Event → Proc × List Act → Prop
  | join (contact : String) : Moves p (.join contact) (p.request .join contact .join [] "")
  | probe {i : ℕ} {target : Member}
      (pick : (p.node.members.values.filter fun m => m.state ≠ .dead)[i]? = some target) :
      Moves p (.probe i) ({ p with node := p.node.takeBroadcasts.2 }.request
        (.probe (p.node.members.values.filter fun m => m.state ≠ State.dead) target)
        target.addr .ping p.node.takeBroadcasts.1 "")
  | resurrect {i : ℕ} {target : Member}
      (pick : (p.node.members.values.filter fun m => m.state = .dead)[i]? = some target) :
      Moves p (.resurrect i) (p.request (.resurrect target) target.addr .ping [] "")
  | ask {i : ℕ} {probe : ℤ} {helper target : Member}
      (ready : p.ready[i]? = some (.ask probe helper target)) :
      Moves p (.start i) ({ p with ready := p.ready.eraseIdx i }.request (.ask probe) helper.addr
        .pingReq [] target.addr)
  | relay {i : ℕ} {req : Message} (ready : p.ready[i]? = some (.relay req)) :
      Moves p (.start i) ({ p with ready := p.ready.eraseIdx i }.request (.relay req)
        req.targetAddr .ping [] "")
  | acked {i : ℕ} {q : Request} (request : p.requests[i]? = some q) (done : q.done = true) :
      Moves p (.acked i) (({ p with requests := p.requests.eraseIdx i }.acked q.msg q.caller).1,
        .returned q.caller q.addr q.msg true ::
          ({ p with requests := p.requests.eraseIdx i }.acked q.msg q.caller).2)
  | timedOut {i : ℕ} {sample : List Member} {q : Request} {p' : Proc}
      (request : p.requests[i]? = some q)
      (next : { p with requests := p.requests.eraseIdx i }.timedOut q.msg sample q.caller =
        some p') :
      Moves p (.timedOut i sample) (p', [.returned q.caller q.addr q.msg false])
  | answered {i : ℕ} {pr : Probe} (probe : p.probes[i]? = some pr) (pending : pr.pending = 0)
      (acked : pr.acked = true) :
      Moves p (.gathered i) ({ p with probes := p.probes.eraseIdx i }, [.answered pr.id pr.target])
  | unanswered {i : ℕ} {pr : Probe} (probe : p.probes[i]? = some pr) (pending : pr.pending = 0)
      (acked : ¬pr.acked = true) :
      Moves p (.gathered i) ({ p with probes := p.probes.eraseIdx i }.mark pr.target.id, [])
  | suspicionTimer {k : ℕ} (lt : k < p.node.timers.length) :
      Moves p (.suspicionTimer k) ({ p with node := p.node.suspicionTimer k }, [])
  | handle (msg : Message) :
      Moves p (.handle msg) ((p.handle msg).1, .handled msg :: (p.handle msg).2)
  | restart (addr : String) : Moves p (.restart addr) ({ p with
      node := { p.node with addr, timers := [] }
      requests := p.requests.filter fun q => q.caller = .join
      probes := []
      ready := [] }, [])

theorem moves {s : Proc × List Act} (h : p.next e = some s) : p.Moves e s := by
  cases e with
  | join contact =>
    obtain rfl := Option.some.inj h
    exact .join contact
  | probe i =>
    obtain ⟨target, hpick, h⟩ := Option.bind_eq_some_iff.mp h
    obtain rfl := Option.some.inj h
    exact .probe hpick
  | resurrect i =>
    obtain ⟨target, hpick, h⟩ := Option.bind_eq_some_iff.mp h
    obtain rfl := Option.some.inj h
    exact .resurrect hpick
  | start i =>
    obtain ⟨ready, hready, h⟩ := Option.bind_eq_some_iff.mp h
    cases ready with
    | ask probe helper target =>
      obtain rfl := Option.some.inj h
      exact .ask hready
    | relay req =>
      obtain rfl := Option.some.inj h
      exact .relay hready
  | acked i =>
    obtain ⟨q, hq, h⟩ := Option.bind_eq_some_iff.mp h
    obtain ⟨hdone, h⟩ := Option.ite_none_right_eq_some.mp h
    obtain rfl := Option.some.inj h
    exact .acked hq hdone
  | timedOut i sample =>
    obtain ⟨q, hq, h⟩ := Option.bind_eq_some_iff.mp h
    obtain ⟨p₁, hp₁, h⟩ := Option.bind_eq_some_iff.mp h
    obtain rfl := Option.some.inj h
    exact .timedOut hq hp₁
  | gathered i =>
    obtain ⟨pr, hpr, h⟩ := Option.bind_eq_some_iff.mp h
    obtain ⟨hpending, h⟩ := Option.ite_none_right_eq_some.mp h
    split at h
    · rename_i hacked
      obtain rfl := Option.some.inj h
      exact .answered hpr hpending hacked
    · rename_i hacked
      obtain rfl := Option.some.inj h
      exact .unanswered hpr hpending hacked
  | suspicionTimer k =>
    obtain ⟨hk, h⟩ := Option.ite_none_right_eq_some.mp h
    obtain rfl := Option.some.inj h
    exact .suspicionTimer hk
  | handle msg =>
    obtain rfl := Option.some.inj h
    exact .handle msg
  | restart addr =>
    obtain rfl := Option.some.inj h
    exact .restart addr

/-- Only what arrives is handled. -/
theorem handled_next {s : Proc × List Act} (h : p.next e = some s) (hm : .handled msg ∈ s.2) :
    e = .handle msg := by
  cases moves h with
  | join | probe | resurrect | ask | relay => cases mem_request hm
  | @acked i q =>
    obtain ⟨caller, addr, msg', done⟩ := q
    rcases List.mem_cons.mp hm with hm | hm
    · cases hm
    · cases caller with
      | relay req => cases mem_reply hm
      | probe => cases List.mem_singleton.mp hm
      | join | ask | resurrect => cases hm
  | timedOut | answered => cases List.mem_singleton.mp hm
  | unanswered | suspicionTimer | restart => cases hm
  | handle msg' =>
    rcases List.mem_cons.mp hm with hm | hm
    · cases hm
      rfl
    · obtain ⟨type, seq, sender, targetAddr, updates⟩ := msg'
      cases type with
      | ping | join => cases mem_reply hm
      | pingReq | ack | joinAck => cases hm

/-- Where the updates of a message come from that a step sends. -/
def Gossips (p p' : Proc) (msg : Message) : Prop :=
  msg.updates = [] ∨ ∃ r, ReflTransGen Node.Moves p.node r ∧ ReflTransGen Node.Moves r p'.node ∧
    (msg.updates = r.takeBroadcasts.1 ∨ msg.updates = r.members.values)

/-- What a step does to the node, and what it sends. -/
structure Spreads (p p' : Proc) (acts : List Act) : Prop where
  moves : ReflTransGen Node.Moves p.node p'.node
  sent : ∀ act ∈ acts, ∀ dest msg, act.sent = some (dest, msg) →
    msg.sender = p'.node.me ∧ p.Gossips p' msg

/-- A step that sends nothing. -/
theorem Spreads.silent (h : ReflTransGen Node.Moves p.node p'.node)
    (hs : ∀ act ∈ acts, act.sent = none) : Spreads p p' acts where
  moves := h
  sent act ha dest msg hsent := by
    rw [hs act ha] at hsent
    cases hsent

/-- A step that does nothing to the node but starts a request. -/
theorem Spreads.request (h : ReflTransGen Node.Moves p.node q.node)
    (hg : ∀ msg : Message, msg.updates = updates → p.Gossips q msg) :
    Spreads p (q.request caller addr type updates targetAddr).1
      (q.request caller addr type updates targetAddr).2 where
  moves := by rwa [node_request]
  sent act ha dest msg hsent := by
    rw [mem_request ha] at hsent
    obtain ⟨rfl, rfl⟩ := Prod.mk.inj (Option.some.inj hsent)
    rw [Gossips, node_request]
    exact ⟨rfl, hg _ rfl⟩

/-- A step that answers. -/
theorem Spreads.reply (h : ReflTransGen Node.Moves p.node q.node) (hm : msg.sender = q.node.me)
    (hg : p.Gossips q msg) (hact : act.sent = none) :
    Spreads p q (act :: (q.reply addr msg).2) where
  moves := h
  sent act' ha dest msg' hsent := by
    rcases List.mem_cons.mp ha with rfl | ha
    · rw [hact] at hsent
      cases hsent
    · rw [mem_reply ha] at hsent
      obtain ⟨rfl, rfl⟩ := Prod.mk.inj (Option.some.inj hsent)
      exact ⟨hm, hg⟩

theorem spreads_next {s : Proc × List Act} (h : p.next e = some s) : Spreads p s.1 s.2 := by
  cases moves h with
  | join | resurrect => exact .request .refl fun _ hu => .inl hu
  | ask | relay => exact .request (q := { p with ready := _ }) .refl fun _ hu => .inl hu
  | probe =>
    exact .request (q := { p with node := _ }) (.single .take) fun _ hu =>
      .inr ⟨p.node, .refl, .single .take, .inl hu⟩
  | @acked i q =>
    obtain ⟨caller, addr, msg, done⟩ := q
    cases caller with
    | join | ask | probe => exact .silent .refl (by simp [Act.sent, Proc.acked])
    | relay req => exact .reply (q := { p with requests := _ }) .refl rfl (.inl rfl) rfl
    | resurrect target =>
      exact .silent (.single (.resurrect target.id)) (by simp [Act.sent, Proc.acked])
  | @timedOut i sample q p' _ hp' =>
    obtain ⟨caller, addr, msg, done⟩ := q
    refine .silent ?_ (by simp [Act.sent])
    cases caller with
    | probe candidates target =>
      obtain ⟨-, hp'⟩ := Option.ite_none_right_eq_some.mp hp'
      split at hp'
      · obtain rfl := Option.some.inj hp'
        exact .single (.mark _ _ _ _)
      · obtain rfl := Option.some.inj hp'
        exact .refl
    | join | ask | relay | resurrect =>
      obtain rfl := Option.some.inj hp'
      exact .refl
  | answered => exact .silent .refl (by simp [Act.sent])
  | unanswered => exact .silent (.single (.mark _ _ _ _)) (by simp)
  | suspicionTimer => exact .silent (.single (.suspicionTimer _)) (by simp)
  | handle msg =>
    have hmerge := p.node.moves_mergeAll msg.gossip
    obtain ⟨type, seq, sender, targetAddr, updates⟩ := msg
    cases type with
    | ping =>
      exact .reply (q := { p with node := _ }) (hmerge.tail .take) rfl
        (.inr ⟨_, hmerge, .single .take, .inl rfl⟩) rfl
    | join =>
      exact .reply (q := { p with node := _ }) hmerge rfl (.inr ⟨_, hmerge, .refl, .inr rfl⟩) rfl
    | pingReq | ack | joinAck => exact .silent hmerge (by simp [Act.sent, Proc.handle])
  | restart addr => exact .silent (.single (.restart addr)) (by simp)

end Proc

end Swim
