/-
A SWIM node that packets from anywhere reach (`Node`, for fields of any JSON value).

* `Untyped.Python` — `json.loads`, the rounding of floats, and what the transport does at an
  address;
* `Untyped.Node` — a node whose records have fields of any JSON value, with its transport,
  and with the probes, relays and resurrections in progress, which hold records of their own;
* `Untyped.Node.next` — its steps, each with whether it raises: a comparison does, or a key
  that is not hashable, or `_send`, be it in `encode`, in `split_addr` or in `sendto`.
-/
import Dssd.SwimWire

namespace Swim.Untyped

/-- What a transport does with a datagram. -/
inductive Sending
  | sent
  | closes
  | raises
  deriving DecidableEq

/-- `json.loads`, `none` when it raises; the rounding of a sum to a double; and what `sendto` of
the transport does at an address.  A UDP socket of asyncio is closed where sending raises anything
but an `OSError`, as it does for a port above 65535. -/
structure Python where
  loads : ByteArray → Option Json
  round : ℚ → Number
  sendto : String × ℤ → Sending

/-! ### Nodes -/

/-- `d[k] = x` for the items of a dictionary. -/
def assign {α : Type} (k : Key) (x : α) : List (Key × α) → List (Key × α)
  | [] => [(k, x)]
  | (k', y) :: l => if k' = k then (k', x) :: l else (k', y) :: assign k x l

/-- `supersedes(update, current)`; `none` when it raises. -/
def supersedes (update current : Member) : Option Bool :=
  if update.state = .dead then some (current.state ≠ .dead)
  else if update.incarnation.ne current.incarnation then
    update.incarnation.gt current.incarnation
  else some (update.state.severity > current.state.severity)

/-- A `_probe_once` in progress; `asked` once it waits for its helpers. -/
structure Probe where
  candidates : List Member
  target : Member
  asked : Bool

/-- A `_relay_ping` that has been spawned; `asked` once it waits for the ack of its target. -/
structure Relay where
  req : Message
  asked : Bool

structure Node where
  id : String
  addr : String
  /-- `cfg.indirect_ping_count` -/
  indirectPingCount : ℕ
  members : List (Key × Member)
  incarnation : Json
  /-- `_transport` has not been closed. -/
  isOpen : Bool
  seqNo : ℕ
  broadcasts : List (Key × Member × ℕ)
  timers : List Member
  probes : List Probe
  relays : List Relay
  /-- The targets of the `_resurrect_once` calls in progress. -/
  revivals : List Member

namespace Node

def fresh (id addr : String) (indirectPingCount : ℕ) : Node :=
  ⟨id, addr, indirectPingCount, [], .int 0, true, 0, [], [], [], [], []⟩

/-- `_me()` -/
def me (r : Node) : Member := ⟨.str r.id, .str r.addr, .alive, r.incarnation⟩

/-- `_set(member)`, for a member whose id is this key -/
def set (r : Node) (k : Key) (member : Member) : Node :=
  let old := r.members.lookup k
  { r with
    members := assign k member r.members
    broadcasts := assign k (member, 0) r.broadcasts
    timers :=
      if member.state = .suspect ∧ old.map Member.state ≠ some .suspect then r.timers ++ [member]
      else r.timers }

/-- `update.id == self.cfg.id` -/
def isOwn (r : Node) (update : Member) : Bool :=
  match update.id with
  | .str s => s = r.id
  | _ => false

/-- `_merge(update)`; `none` when it raises, which it does before it changes anything. -/
def merge (py : Python) (r : Node) (update : Member) : Option Node :=
  if r.isOwn update then
    if update.state = .alive then some r
    else do
      if ← update.incarnation.ge r.incarnation then
        let r := { r with incarnation := ← update.incarnation.succ py.round }
        some { r with broadcasts := assign (.str r.id) (r.me, 0) r.broadcasts }
      else some r
  else do
    let k ← update.id.key?
    match r.members.lookup k with
    | none => some (if update.state ≠ .dead then r.set k update else r)
    | some current => some (if ← supersedes update current then r.set k update else r)

/-- One more sending of a buffered update, which stands under the key of its id. -/
def bump (broadcasts : List (Key × Member × ℕ)) (item : Key × Member × ℕ) :
    List (Key × Member × ℕ) :=
  let sent := item.2.2 + 1
  if sent ≥ maxTransmitsPerUpdate then broadcasts.filter fun p => p.1 ≠ item.1
  else assign item.1 (item.2.1, sent) broadcasts

/-- `_take_broadcasts()` -/
def takeBroadcasts (r : Node) : List Member × Node :=
  let due := (r.broadcasts.insertionSort fun a b => a.2.2 ≤ b.2.2).take maxUpdatesPerMessage
  (due.map fun p => p.2.1, { r with broadcasts := due.foldl bump r.broadcasts })

/-- `_send(addr, msg)`, with whether it raises. -/
def send (py : Python) (r : Node) (addr : Json) (msg : Message) : Node × Bool :=
  if msg.json.encodable then
    match (splitAddr addr).map py.sendto with
    | some .sent => (r, false)
    | some .closes => ({ r with isOpen := false }, false)
    | some .raises | none => (r, true)
  else (r, true)

/-- `_request(addr, msg_type, …)` up to its `await`, with whether it raises. -/
def request (py : Python) (r : Node) (addr : Json) (type : MsgType) (targetAddr : Json)
    (updates : List Member) : Node × Bool :=
  let r := { r with seqNo := r.seqNo + 1 }
  r.send py addr ⟨type, .int r.seqNo, r.me, targetAddr, updates⟩

/-- The requests of `asyncio.gather(*asks)`, with whether one of them raises. -/
def askAll (py : Python) (r : Node) (targetAddr : Json) : List Member → Node × Bool
  | [] => (r, false)
  | helper :: helpers =>
    let (r, raised) := r.request py helper.addr .pingReq targetAddr []
    let (r, raised') := r.askAll py targetAddr helpers
    (r, raised || raised')

/-- `_reply(req, msg_type, updates)`, with whether it raises. -/
def reply (py : Python) (r : Node) (req : Message) (type : MsgType) (updates : List Member) :
    Node × Bool :=
  r.send py req.sender.addr ⟨type, req.seq, r.me, .str "", updates⟩

/-- `_handle(msg)`, with whether it raises. -/
def handle (py : Python) (r : Node) (msg : Message) : Node × Bool :=
  let merged := Run.final (merge py) r msg.gossip
  if (Run.exec (merge py) r msg.gossip).isNone then (merged, true)
  else
    match msg.type with
    | .ping => merged.takeBroadcasts.2.reply py msg .ack merged.takeBroadcasts.1
    | .join => merged.reply py msg .joinAck (merged.members.map Prod.snd)
    | .pingReq => ({ merged with relays := merged.relays ++ [⟨msg, false⟩] }, false)
    -- `_waiters.get(msg.seq)`
    | .ack | .joinAck => (merged, msg.seq.key?.isNone)

/-- `_mark(id, new_state, from_state, incarnation)` -/
def mark (r : Node) (id : Json) (new_state from_state : State) (incarnation : Option Json) : Node :=
  match id.key? with
  | none => r
  | some k =>
    match r.members.lookup k with
    | none => r
    | some current =>
      if current.state ≠ from_state then r
      else if incarnation.any current.incarnation.ne then r
      else r.set k ⟨current.id, current.addr, new_state, current.incarnation⟩

/-- The end of `_resurrect_once`, after the ack of a member found dead, with whether it raises. -/
def resurrect (py : Python) (r : Node) (id : Json) : Node × Bool :=
  match id.key? with
  | none => (r, true)
  | some k =>
    match r.members.lookup k with
    | none => (r, false)
    | some current =>
      if current.state = .dead then
        match current.incarnation.succ py.round with
        | none => (r, true)
        | some i => (r.set k ⟨current.id, current.addr, .alive, i⟩, false)
      else (r, false)

end Node

inductive Event
  | received (data : ByteArray)
  /-- `_probe_once` pings the candidate in place `i`. -/
  | probe (i : ℕ)
  /-- The probe in place `i` gets an ack. -/
  | answered (i : ℕ)
  /-- The ping of the probe in place `i` times out; it asks the helpers in these places. -/
  | unanswered (i : ℕ) (picks : List ℕ)
  /-- All helpers of the probe in place `i` time out. -/
  | failed (i : ℕ)
  /-- The relay in place `i` pings its target. -/
  | relay (i : ℕ)
  /-- The relay in place `i` gets an ack, or does not. -/
  | relayed (i : ℕ)
  | unrelayed (i : ℕ)
  /-- `_resurrect_once` pings the `DEAD` member in place `i`. -/
  | resurrect (i : ℕ)
  /-- The resurrection in place `i` gets an ack, or does not. -/
  | revived (i : ℕ)
  | lost (i : ℕ)
  | suspicionTimer (k : ℕ)

/-- The packet that a node receives and does not drop. -/
def Event.packet (py : Python) : Event → Option Message
  | .received data => (py.loads data).bind decode
  | _ => none

namespace Node

/-- The positions that `random.sample(helpers, min(cfg.indirect_ping_count, len(helpers)))` may
pick. -/
def Sample (r : Node) (helpers : List Member) (picks : List ℕ) : Prop :=
  picks.length = min r.indirectPingCount helpers.length ∧ picks.Nodup ∧
    ∀ j ∈ picks, j < helpers.length

instance (r : Node) (helpers : List Member) (picks : List ℕ) :
    Decidable (r.Sample helpers picks) := by
  unfold Sample
  infer_instance

/-- One step, with whether it raises. -/
def next (py : Python) (r : Node) (e : Event) : Option (Node × Bool) :=
  match e with
  | .received _ =>
    match e.packet py with
    | none => some (r, false)
    | some msg => some (r.handle py msg)
  | .probe i => do
    let candidates := (r.members.map Prod.snd).filter fun m => m.state ≠ .dead
    let target ← candidates[i]?
    let (r, raised) := r.takeBroadcasts.2.request py target.addr .ping (.str "") r.takeBroadcasts.1
    if raised then some (r, true)
    else some ({ r with probes := r.probes ++ [⟨candidates, target, false⟩] }, false)
  | .answered i => do
    let _ ← r.probes[i]?
    some ({ r with probes := r.probes.eraseIdx i }, false)
  | .unanswered i picks => do
    let pr ← r.probes[i]?
    let helpers := pr.candidates.filter fun m => m.id.ne pr.target.id
    if pr.asked = false ∧ r.Sample helpers picks then
      let sample := picks.filterMap fun j => helpers[j]?
      let rest := { r with probes := r.probes.eraseIdx i }
      if sample = [] then some (rest.mark pr.target.id .suspect .alive none, false)
      else
        let (r, raised) := r.askAll py pr.target.addr sample
        if raised then some ({ r with probes := r.probes.eraseIdx i }, true)
        else some ({ r with probes := r.probes.set i { pr with asked := true } }, false)
    else none
  | .failed i => do
    let pr ← r.probes[i]?
    if pr.asked = true then
      let r := { r with probes := r.probes.eraseIdx i }
      some (r.mark pr.target.id .suspect .alive none, false)
    else none
  -- what a relay raises ends its own task only
  | .relay i => do
    let q ← r.relays[i]?
    if q.asked = false then
      let (r, raised) := r.request py q.req.targetAddr .ping (.str "") []
      some ({ r with
        relays := if raised then r.relays.eraseIdx i else r.relays.set i { q with asked := true } },
        false)
    else none
  | .relayed i => do
    let q ← r.relays[i]?
    if q.asked = true then
      let r := { r with relays := r.relays.eraseIdx i }
      some ((r.reply py q.req .ack []).1, false)
    else none
  | .unrelayed i => do
    let q ← r.relays[i]?
    if q.asked = true then some ({ r with relays := r.relays.eraseIdx i }, false) else none
  | .resurrect i => do
    let target ← ((r.members.map Prod.snd).filter fun m => m.state = .dead)[i]?
    let (r, raised) := r.request py target.addr .ping (.str "") []
    if raised then some (r, true)
    else some ({ r with revivals := r.revivals ++ [target] }, false)
  | .revived i => do
    let target ← r.revivals[i]?
    some ({ r with revivals := r.revivals.eraseIdx i }.resurrect py target.id)
  | .lost i => do
    let _ ← r.revivals[i]?
    some ({ r with revivals := r.revivals.eraseIdx i }, false)
  | .suspicionTimer k => do
    let member ← r.timers[k]?
    let r := { r with timers := r.timers.eraseIdx k }
    some (r.mark member.id .dead .suspect (some member.incarnation), false)

def step (py : Python) (r : Node) (e : Event) : Option Node := (r.next py e).map Prod.fst

end Node

/-! ### Dictionaries -/

variable {α : Type} {k : Key} {x : α} {l : List (Key × α)} {p : Key × α}

theorem mem_assign (h : p ∈ assign k x l) : p.2 = x ∨ p ∈ l := by
  induction l with
  | nil => exact .inl (congrArg Prod.snd (List.mem_singleton.mp h))
  | cons q l ih =>
    unfold assign at h
    split at h
    · rcases List.mem_cons.mp h with rfl | h
      · exact .inl rfl
      · exact .inr (List.mem_cons_of_mem _ h)
    · rcases List.mem_cons.mp h with rfl | h
      · exact .inr List.mem_cons_self
      · exact (ih h).imp_right (List.mem_cons_of_mem _)

theorem exists_mem_assign (k : Key) (x : α) (l : List (Key × α)) :
    ∃ p ∈ assign k x l, p.2 = x := by
  induction l with
  | nil => exact ⟨(k, x), List.mem_cons_self, rfl⟩
  | cons q l ih =>
    unfold assign
    split
    · exact ⟨_, List.mem_cons_self, rfl⟩
    · obtain ⟨p, hp, hx⟩ := ih
      exact ⟨p, List.mem_cons_of_mem _ hp, hx⟩

theorem mem_of_lookup (h : l.lookup k = some x) : ∃ p ∈ l, p.2 = x := by
  obtain ⟨l₁, l₂, rfl, -⟩ := List.lookup_eq_some_iff.mp h
  exact ⟨(k, x), List.mem_append_right _ List.mem_cons_self, rfl⟩

theorem not_isNone {o : Option α} (h : o.isSome = true) : ¬o.isNone = true :=
  Bool.eq_false_iff.mp (Option.isNone_eq_false_iff.mpr h)

end Swim.Untyped
