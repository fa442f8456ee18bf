/-
Packets from anywhere (`_Protocol.datagram_received`).

* `Node.Good` — every recorded address is one that `split_addr` accepts, and every recorded
  incarnation an integer; `Node.Holds` — and the transport is open, and no probe, no
  resurrection and no well-formed message raises;
* `Harmless` — the packets and resurrections that leave nothing behind that cannot be sent;
* `Node.merge_cases` — what `_merge` does; `Node.Held`, `Node.Held.next` — what harmless steps
  keep, and that nothing raises then;
* **`Node.packets_exact`** — exactly the harmless steps break nothing, wherever the list of
  updates of a packet might end; `Node.packet_breaks` — a packet that breaks a node.
-/
import Dssd.SwimUntyped

namespace Swim.Untyped

/-! ### What is claimed -/

/-- The transport takes a datagram to the address. -/
def Takes (py : Python) (addr : Json) : Prop := (splitAddr addr).map py.sendto = some .sent

/-- Sending to the address closes the transport. -/
def Closes (py : Python) (addr : Json) : Prop := (splitAddr addr).map py.sendto = some .closes

/-- An address that `split_addr` accepts, and an integer incarnation. -/
def Member.Good (m : Member) : Prop := (splitAddr m.addr).isSome = true ∧ m.incarnation.isInt = true

/-- A string and an integer where they belong, an integer that is not too long to be counted on, and
an address that `split_addr` accepts. -/
structure Member.WellFormed (py : Python) (m : Member) : Prop where
  good : m.Good
  id : ∃ s, m.id = .str s
  encodable : m.incarnation.encodable = true
  succ : m.incarnation.SuccEncodable py.round

/-- Well-formed members, an integer that is not too long, and a sender at whose address the
transport does not raise. -/
structure Message.WellFormed (py : Python) (msg : Message) : Prop where
  seq : msg.seq.isInt = true ∧ msg.seq.encodable = true
  gossip : ∀ m ∈ msg.gossip, m.WellFormed py
  sender : (splitAddr msg.sender.addr).map py.sendto ≠ some .raises

/-- The steps of a node itself, and well-formed messages. -/
def Event.WellFormed (py : Python) (e : Event) : Prop :=
  ∀ msg, e.packet py = some msg → msg.WellFormed py

namespace Node

def Good (r : Node) : Prop := ∀ p ∈ r.members, p.2.Good

/-- The records are good, the transport is open, and nothing that follows raises, as long as the
node can print how many requests it has sent. -/
def Holds (py : Python) (r : Node) : Prop :=
  r.Good ∧ r.isOpen = true ∧ ∀ e r' raised, e.WellFormed py → r.next py e = some (r', raised) →
    Addr.Printable r'.seqNo → raised = false

/-- `_merge` records the update. -/
def Records (r : Node) (update : Member) : Prop :=
  r.isOwn update = false ∧ ∃ k, update.id.key? = some k ∧
    match r.members.lookup k with
    | none => update.state ≠ .dead
    | some current => supersedes update current = some true

/-- `_merge` refutes the update, which is about the node itself. -/
def Refutes (r : Node) (update : Member) : Prop :=
  r.isOwn update = true ∧ update.state ≠ .alive ∧ update.incarnation.ge r.incarnation = some true

end Node

/-- A member that can be gossiped, and sent messages. -/
structure Member.Sound (py : Python) (m : Member) : Prop where
  good : m.Good
  taken : Takes py m.addr
  encodable : m.json.encodable = true

/-- What `_merge` makes of the update can be sent. -/
structure Node.Fits (py : Python) (r : Node) (update : Member) : Prop where
  recorded : r.Records update → update.Sound py
  refuted : r.Refutes update → update.incarnation.SuccEncodable py.round

namespace Message

/-- An ack to the sender does not close the transport. -/
def Answerable (py : Python) (msg : Message) : Prop :=
  msg.seq.encodable = true → ¬ Closes py msg.sender.addr

/-- Nor does the ping to the target. -/
def Relayable (py : Python) (msg : Message) : Prop :=
  ¬ Closes py msg.targetAddr ∧ msg.Answerable py

/-- What the message makes a node send does not close its transport. -/
def Spares (py : Python) (msg : Message) : Prop :=
  match msg.type with
  | .ping | .join => msg.Answerable py
  | .pingReq => msg.Relayable py
  | .ack | .joinAck => True

end Message

/-- `_resurrect_once` does not make the incarnation too long. -/
def Node.Revivable (py : Python) (r : Node) (id : Json) : Prop :=
  ∀ k current, id.key? = some k → r.members.lookup k = some current → current.state = .dead →
    current.incarnation.SuccEncodable py.round

/-- A packet all of whose updates fit in their turn, and that does not make the node close its
transport; a resurrection that does not count too far; or any other step of the node. -/
def Harmless (py : Python) (r : Node) (e : Event) : Prop :=
  match e with
  | .received _ => ∀ msg, e.packet py = some msg →
      Run.Meets (Node.merge py) (Node.Fits py) r msg.gossip ∧
        ((Run.exec (Node.merge py) r msg.gossip).isSome = true → msg.Spares py)
  | .revived i => ∀ target, r.revivals[i]? = some target → r.Revivable py target.id
  | _ => True

/-- The transport is open, and all that the node may have to send later goes through. -/
structure Node.Clean (py : Python) (r : Node) : Prop where
  isOpen : r.isOpen = true
  own : r.incarnation.encodable = true
  members : ∀ p ∈ r.members, p.2.Sound py
  relays : ∀ q ∈ r.relays, q.req.Relayable py

/-- The step leaves the node clean, and a packet would if it ended after any of its updates. -/
def CutShort (py : Python) (r : Node) (e : Event) : Prop :=
  (∀ r' raised, r.next py e = some (r', raised) → r'.Clean py) ∧
    ∀ msg, e.packet py = some msg → ∀ us, us <+: msg.gossip →
      (Run.final (Node.merge py) r us).Clean py

/-! ### Numbers -/

theorem isSome_number? {j : Json} (h : j.isInt = true) : j.number?.isSome = true := by
  cases j with
  | bool | int => rfl
  | _ => cases h

theorem isSome_succ {j : Json} (round : ℚ → Number) (h : j.number?.isSome = true) :
    ∃ i, j.succ round = some i ∧ i.number?.isSome = true ∧ (j.isInt = true → i.isInt = true) := by
  cases j with
  | bool | int => exact ⟨_, rfl, rfl, fun _ => rfl⟩
  | float x =>
    cases x with
    | finite q => exact ⟨_, rfl, rfl, fun h => by cases h⟩
    | _ => exact ⟨_, rfl, rfl, fun h => by cases h⟩
  | _ => cases h

/-- Numbers can be compared. -/
theorem isSome_ge {i j : Json} (hi : i.number?.isSome = true) (hj : j.number?.isSome = true) :
    ∃ b, i.ge j = some b := by
  obtain ⟨x, hx⟩ := Option.isSome_iff_exists.mp hi
  obtain ⟨y, hy⟩ := Option.isSome_iff_exists.mp hj
  exact ⟨x.ge y, by rw [Json.ge, hx, hy]; rfl⟩

theorem isSome_supersedes {u m : Member} (hu : u.Good) (hm : m.Good) :
    ∃ b, supersedes u m = some b := by
  unfold supersedes
  split
  · exact ⟨_, rfl⟩
  · split
    · obtain ⟨y, hy⟩ := Option.isSome_iff_exists.mp (isSome_number? hm.2)
      have hint := hu.2
      cases hj : u.incarnation with
      | bool b =>
        rw [Json.gt, hy]
        exact ⟨_, rfl⟩
      | int i =>
        rw [Json.gt, hy]
        exact ⟨_, rfl⟩
      | _ =>
        rw [hj] at hint
        cases hint
    · exact ⟨_, rfl⟩

/-! ### Addresses -/

section addresses

variable {py : Python} {addr : Json}

theorem Takes.isSome (h : Takes py addr) : (splitAddr addr).isSome = true := by
  obtain ⟨dest, hdest, -⟩ := Option.map_eq_some_iff.mp h
  rw [hdest]
  rfl

theorem Takes.not_closes (h : Takes py addr) : ¬ Closes py addr := by
  intro hcloses
  cases h.symm.trans hcloses

theorem Takes.not_raises (h : Takes py addr) : (splitAddr addr).map py.sendto ≠ some .raises := by
  intro hraises
  cases h.symm.trans hraises

end addresses

namespace Node

variable {py : Python} {r r' : Node} {u m : Member} {us : List Member} {msg : Message} {e : Event}
  {addr : Json}

/-! ### Sending -/

/-- All that the node has to send can be written, and its records can be compared. -/
structure Encodes (r : Node) : Prop where
  good : r.Good
  number : r.incarnation.number?.isSome = true
  own : r.incarnation.encodable = true
  members : ∀ p ∈ r.members, p.2.json.encodable = true
  broadcasts : ∀ p ∈ r.broadcasts, p.2.1.json.encodable = true

theorem Encodes.me (h : r.Encodes) : r.me.json.encodable = true :=
  encodable_member.mpr ⟨rfl, rfl, h.own⟩

/-- What is sent leaves the node alone, but for its transport. -/
theorem send_cases (py : Python) (r : Node) (addr : Json) (msg : Message) :
    (msg.json.encodable = true ∧ Closes py addr ∧
        (r.send py addr msg).1 = { r with isOpen := false }) ∨
      ¬ (msg.json.encodable = true ∧ Closes py addr) ∧ (r.send py addr msg).1 = r := by
  unfold send Closes
  split
  · rename_i henc
    split
    · rename_i hto
      exact .inr ⟨by simp [hto], rfl⟩
    · rename_i hto
      exact .inl ⟨henc, hto, rfl⟩
    · rename_i hto
      exact .inr ⟨by simp [hto], rfl⟩
    · rename_i hto
      exact .inr ⟨by simp [hto], rfl⟩
  · rename_i henc
    exact .inr ⟨fun h => henc h.1, rfl⟩

theorem send_fst (h : msg.json.encodable = true → ¬ Closes py addr) :
    (r.send py addr msg).1 = r := by
  rcases send_cases py r addr msg with ⟨henc, hcloses, -⟩ | ⟨-, hsame⟩
  · exact absurd hcloses (h henc)
  · exact hsame

theorem send_snd (henc : msg.json.encodable = true) (haddr : (splitAddr addr).isSome = true)
    (hto : (splitAddr addr).map py.sendto ≠ some .raises) : (r.send py addr msg).2 = false := by
  obtain ⟨dest, hdest⟩ := Option.isSome_iff_exists.mp haddr
  unfold send
  rw [hdest, Option.map_some] at hto ⊢
  rw [if_pos henc]
  cases hsend : py.sendto dest with
  | sent => rfl
  | closes => rfl
  | raises => exact absurd (congrArg some hsend) hto

/-- A request counts, and is sent. -/
theorem request_fst (h : ¬ Closes py addr) (type : MsgType) (targetAddr : Json)
    (updates : List Member) :
    (r.request py addr type targetAddr updates).1 = { r with seqNo := r.seqNo + 1 } :=
  send_fst fun _ => h

theorem request_snd (h : r.Encodes) (hto : Takes py addr)
    (hseq : Addr.Printable ((r.seqNo + 1 : ℕ) : ℤ)) (type : MsgType) (targetAddr : Json)
    (updates : List Member) (htarget : targetAddr.encodable = true)
    (hupdates : ∀ u ∈ updates, u.json.encodable = true) :
    (r.request py addr type targetAddr updates).2 = false := by
  refine send_snd (encodable_message.mpr ⟨encodable_int.mpr hseq, ?_, htarget, hupdates⟩) hto.isSome
    hto.not_raises
  exact encodable_member.mpr ⟨rfl, rfl, h.own⟩

theorem askAll_fst {helpers : List Member} (h : ∀ m ∈ helpers, Takes py m.addr) (r : Node)
    (targetAddr : Json) :
    (r.askAll py targetAddr helpers).1 = { r with seqNo := r.seqNo + helpers.length } := by
  induction helpers generalizing r with
  | nil => rfl
  | cons helper helpers ih =>
    obtain ⟨hto, hrest⟩ := List.forall_mem_cons.mp h
    unfold askAll
    dsimp only
    rw [request_fst hto.not_closes, ih hrest, List.length_cons]
    dsimp only
    rw [Nat.add_assoc, Nat.add_comm 1]

theorem askAll_snd {helpers : List Member} (h : r.Encodes) (hto : ∀ m ∈ helpers, Takes py m.addr)
    {targetAddr : Json} (htarget : targetAddr.encodable = true)
    (hseq : Addr.Printable ((r.seqNo + helpers.length : ℕ) : ℤ)) :
    (r.askAll py targetAddr helpers).2 = false := by
  induction helpers generalizing r with
  | nil => rfl
  | cons helper helpers ih =>
    obtain ⟨hhelper, hrest⟩ := List.forall_mem_cons.mp hto
    rw [List.length_cons] at hseq
    have hfirst := request_snd h hhelper (Addr.printable_of_le hseq (by omega)) .pingReq targetAddr
      [] htarget fun _ hu => absurd hu List.not_mem_nil
    unfold askAll
    dsimp only
    rw [hfirst, request_fst hhelper.not_closes, Bool.false_or]
    refine ih (r := { r with seqNo := r.seqNo + 1 }) ⟨h.good, h.number, h.own, h.members,
      h.broadcasts⟩ hrest ?_
    rwa [Nat.add_assoc, Nat.add_comm 1]

/-- What is sent of the gossip has been buffered, and so has what stays. -/
theorem mem_takeBroadcasts (r : Node) : (∀ u ∈ r.takeBroadcasts.1, ∃ p ∈ r.broadcasts, p.2.1 = u) ∧
    ∀ p ∈ r.takeBroadcasts.2.broadcasts, ∃ q ∈ r.broadcasts, q.2.1 = p.2.1 := by
  have hdue : ∀ p ∈ (r.broadcasts.insertionSort fun a b => a.2.2 ≤ b.2.2).take maxUpdatesPerMessage,
      p ∈ r.broadcasts := by
    intro p hp
    exact (List.perm_insertionSort _ _).mem_iff.mp (List.mem_of_mem_take hp)
  refine ⟨fun u hu => ?_, ?_⟩
  · obtain ⟨p, hp, rfl⟩ := List.mem_map.mp hu
    exact ⟨p, hdue p hp, rfl⟩
  · refine List.foldlRecOn _ bump (motive := fun l => ∀ p ∈ l, ∃ q ∈ r.broadcasts, q.2.1 = p.2.1)
      (fun p hp => ⟨p, hp, rfl⟩) fun l hl item hitem p hp => ?_
    unfold bump at hp
    dsimp only at hp
    split at hp
    · exact hl p (List.mem_of_mem_filter hp)
    · rcases mem_assign hp with heq | hp
      · exact ⟨item, hdue item hitem, by rw [heq]⟩
      · exact hl p hp

theorem Encodes.takeBroadcasts (h : r.Encodes) : r.takeBroadcasts.2.Encodes ∧
    ∀ u ∈ r.takeBroadcasts.1, u.json.encodable = true := by
  obtain ⟨hsent, hkept⟩ := r.mem_takeBroadcasts
  refine ⟨⟨h.good, h.number, h.own, h.members, fun p hp => ?_⟩, fun u hu => ?_⟩
  · obtain ⟨q, hq, heq⟩ := hkept p hp
    exact heq ▸ h.broadcasts q hq
  · obtain ⟨p, hp, rfl⟩ := hsent u hu
    exact h.broadcasts p hp

/-! ### Merging -/

theorem Good.set (h : r.Good) (hm : m.Good) (k : Key) : (r.set k m).Good := by
  intro p hp
  rcases mem_assign hp with heq | hp
  · exact heq ▸ hm
  · exact h p hp

/-- What `_merge` does. -/
theorem merge_cases (h : r.merge py u = some r') :
    (r' = r ∧ ¬ r.Records u ∧ ¬ r.Refutes u) ∨
    (∃ i, r.Refutes u ∧ ¬ r.Records u ∧ u.incarnation.succ py.round = some i ∧
      i.number?.isSome = true ∧ r' = { r with
        incarnation := i
        broadcasts := assign (.str r.id) (⟨.str r.id, .str r.addr, .alive, i⟩, 0) r.broadcasts }) ∨
    (∃ k, r.Records u ∧ ¬ r.Refutes u ∧ u.id.key? = some k ∧ r' = r.set k u) := by
  unfold merge at h
  split at h
  · rename_i hown
    have hnot : ¬ r.Records u := fun hrec => absurd (hown.symm.trans hrec.1) (by decide)
    split at h
    · rename_i halive
      obtain rfl := Option.some.inj h
      exact .inl ⟨rfl, hnot, fun href => href.2.1 halive⟩
    · rename_i halive
      obtain ⟨b, hge, h⟩ := Option.bind_eq_some_iff.mp h
      split at h
      · rename_i hb
        -- a rumor about the node itself that it can compare has a number
        have hu : u.incarnation.number?.isSome = true := by
          obtain ⟨x, hx, -⟩ := Option.bind_eq_some_iff.mp hge
          rw [hx]
          rfl
        obtain ⟨i, hi, hnum, -⟩ := isSome_succ py.round hu
        obtain ⟨j, hj, h⟩ := Option.bind_eq_some_iff.mp h
        obtain rfl := Option.some.inj (hi.symm.trans hj)
        exact .inr (.inl ⟨i, ⟨hown, halive, hge.trans (congrArg some hb)⟩, hnot, hi, hnum,
          (Option.some.inj h).symm⟩)
      · rename_i hb
        obtain rfl := Option.some.inj h
        exact .inl ⟨rfl, hnot, fun href => hb (Option.some.inj (hge.symm.trans href.2.2))⟩
  · rename_i hown
    have hnot : ¬ r.Refutes u := fun href => hown href.1
    obtain ⟨k, hk, h⟩ := Option.bind_eq_some_iff.mp h
    have hiff : r.Records u ↔ match r.members.lookup k with
        | none => u.state ≠ .dead
        | some current => supersedes u current = some true := by
      unfold Records
      constructor
      · rintro ⟨-, k', hk', hrec⟩
        obtain rfl := Option.some.inj (hk.symm.trans hk')
        exact hrec
      · exact fun hrec => ⟨Bool.eq_false_iff.mpr hown, k, hk, hrec⟩
    cases hl : r.members.lookup k with
    | none =>
      rw [hl] at h hiff
      replace h : some (if u.state ≠ .dead then r.set k u else r) = some r' := h
      obtain rfl := Option.some.inj h
      split
      · rename_i hs
        exact .inr (.inr ⟨k, hiff.mpr hs, hnot, hk, rfl⟩)
      · rename_i hs
        exact .inl ⟨rfl, fun hrec => hs (hiff.mp hrec), hnot⟩
    | some current =>
      rw [hl] at h hiff
      obtain ⟨b, hb, h⟩ := Option.bind_eq_some_iff.mp h
      obtain rfl := Option.some.inj h
      split
      · rename_i hs
        exact .inr (.inr ⟨k, hiff.mpr (hb.trans (congrArg some hs)), hnot, hk, rfl⟩)
      · rename_i hs
        exact .inl ⟨rfl, fun hrec => hs (Option.some.inj (hb.symm.trans (hiff.mp hrec))), hnot⟩

/-- A merged update leaves a clean node just when it fits. -/
theorem clean_merge (hc : r.Clean py) (h : r.merge py u = some r') :
    r'.Clean py ↔ r.Fits py u := by
  rcases merge_cases h with ⟨rfl, hrec, href⟩ | ⟨i, href, hrec, hi, -, rfl⟩ |
    ⟨k, hrec, href, -, rfl⟩
  · exact ⟨fun _ => ⟨fun h => absurd h hrec, fun h => absurd h href⟩, fun _ => hc⟩
  · constructor
    · refine fun hc' => ⟨fun h => absurd h hrec, fun _ j hj => ?_⟩
      obtain rfl := Option.some.inj (hi.symm.trans hj)
      exact hc'.own
    · exact fun hfits => ⟨hc.isOpen, hfits.refuted href i hi, hc.members, hc.relays⟩
  · constructor
    · refine fun hc' => ⟨fun _ => ?_, fun h => absurd h href⟩
      obtain ⟨p, hp, heq⟩ := exists_mem_assign k u r.members
      exact heq ▸ hc'.members p hp
    · refine fun hfits => ⟨hc.isOpen, hc.own, fun p hp => ?_, hc.relays⟩
      rcases mem_assign hp with heq | hp
      · exact heq ▸ hfits.recorded hrec
      · exact hc.members p hp

theorem Encodes.set (h : r.Encodes) (hm : m.Good) (henc : m.json.encodable = true) (k : Key) :
    (r.set k m).Encodes := by
  refine ⟨h.good.set hm k, h.number, h.own, fun p hp => ?_, fun p hp => ?_⟩
  · rcases mem_assign hp with heq | hp
    · exact heq ▸ henc
    · exact h.members p hp
  · rcases mem_assign hp with heq | hp
    · exact heq ▸ henc
    · exact h.broadcasts p hp

theorem Encodes.merge (h : r.Encodes) (hs : r.merge py u = some r')
    (hrec : r.Records u → u.Good ∧ u.json.encodable = true)
    (href : r.Refutes u → u.incarnation.SuccEncodable py.round) : r'.Encodes := by
  rcases merge_cases hs with ⟨rfl, -⟩ | ⟨i, hr, -, hi, hnum, rfl⟩ | ⟨k, hr, -, -, rfl⟩
  · exact h
  · refine ⟨h.good, hnum, href hr i hi, h.members, fun p hp => ?_⟩
    rcases mem_assign hp with heq | hp
    · rw [heq]
      exact encodable_member.mpr ⟨rfl, rfl, href hr i hi⟩
    · exact h.broadcasts p hp
  · exact h.set (hrec hr).1 (hrec hr).2 k

/-- A good update of another member, or of the node itself, does not raise. -/
theorem isSome_merge (py : Python) (h : r.Encodes) (hu : u.Good) (hid : ∃ s, u.id = .str s) :
    ∃ r', r.merge py u = some r' := by
  obtain ⟨s, hs⟩ := hid
  unfold Node.merge
  split
  · split
    · exact ⟨r, rfl⟩
    · have hnum := isSome_number? hu.2
      obtain ⟨b, hb⟩ := isSome_ge hnum h.number
      rw [hb, Option.bind_eq_bind, Option.bind_some]
      split
      · obtain ⟨i, hi, -⟩ := isSome_succ py.round hnum
        rw [hi]
        exact ⟨_, rfl⟩
      · exact ⟨r, rfl⟩
  · rw [hs, Json.key?, Option.bind_eq_bind, Option.bind_some]
    cases hl : r.members.lookup (.str s) with
    | none => exact ⟨_, rfl⟩
    | some current =>
      obtain ⟨p, hp, rfl⟩ := mem_of_lookup hl
      obtain ⟨b, hb⟩ := isSome_supersedes hu (h.good p hp)
      dsimp only
      rw [hb]
      exact ⟨_, rfl⟩

theorem encodable_of_wellFormed (hu : u.WellFormed py) : u.json.encodable = true := by
  obtain ⟨s, hs⟩ := hu.id
  exact encodable_member.mpr ⟨by rw [hs]; rfl, encodable_of_splitAddr hu.good.1, hu.encodable⟩

/-- All of a well-formed packet is merged. -/
theorem exec_merge (h : r.Encodes) (hu : ∀ u ∈ us, u.WellFormed py) :
    (Run.exec (Node.merge py) r us).isSome = true ∧ (Run.final (Node.merge py) r us).Encodes := by
  induction us generalizing r with
  | nil => exact ⟨rfl, h⟩
  | cons u us ih =>
    obtain ⟨hwell, hrest⟩ := List.forall_mem_cons.mp hu
    obtain ⟨r', hr'⟩ := isSome_merge py h hwell.good hwell.id
    rw [Run.exec, Run.final, hr', Option.bind_some]
    refine ih (h.merge hr' (fun _ => ?_) fun _ => hwell.succ) hrest
    exact ⟨hwell.good, encodable_of_wellFormed hwell⟩

/-! ### What holds -/

/-- What holds along runs of harmless packets. -/
structure Held (py : Python) (r : Node) : Prop extends r.Clean py where
  number : r.incarnation.number?.isSome = true
  broadcasts : ∀ p ∈ r.broadcasts, p.2.1.json.encodable = true
  hashable : ∀ p ∈ r.members, p.2.id.key?.isSome = true
  captured : ∀ pr ∈ r.probes, Takes py pr.target.addr ∧ ∀ m ∈ pr.candidates, Takes py m.addr
  targets : ∀ m ∈ r.revivals, m.id.key?.isSome = true

theorem Held.good (h : r.Held py) : r.Good := fun p hp => (h.members p hp).good

theorem Held.encodes (h : r.Held py) : r.Encodes :=
  ⟨h.good, h.number, h.own, fun p hp => (h.members p hp).encodable, h.broadcasts⟩

/-- A step that leaves the records alone. -/
theorem Held.congr (h : r.Held py) (hm : r'.members = r.members)
    (hi : r'.incarnation = r.incarnation) (ho : r'.isOpen = r.isOpen)
    (hb : ∀ p ∈ r'.broadcasts, ∃ q ∈ r.broadcasts, q.2.1 = p.2.1)
    (hq : ∀ q ∈ r'.relays, q.req.Relayable py)
    (hp : ∀ pr ∈ r'.probes, Takes py pr.target.addr ∧ ∀ m ∈ pr.candidates, Takes py m.addr)
    (ht : ∀ m ∈ r'.revivals, m.id.key?.isSome = true) : r'.Held py where
  isOpen := ho.trans h.isOpen
  own := hi ▸ h.own
  members p hmem := h.members p (hm ▸ hmem)
  relays := hq
  number := hi ▸ h.number
  broadcasts p hmem := by
    obtain ⟨q, hmem, heq⟩ := hb p hmem
    exact heq ▸ h.broadcasts q hmem
  hashable p hmem := h.hashable p (hm ▸ hmem)
  captured := hp
  targets := ht

theorem Held.count (h : r.Held py) (n : ℕ) : ({ r with seqNo := n } : Node).Held py :=
  h.congr rfl rfl rfl (fun p hp => ⟨p, hp, rfl⟩) h.relays h.captured h.targets

theorem Held.takeBroadcasts (h : r.Held py) : r.takeBroadcasts.2.Held py :=
  h.congr rfl rfl rfl r.mem_takeBroadcasts.2 h.relays h.captured h.targets

/-- The probes, relays and resurrections in progress change. -/
theorem Held.tasks (h : r.Held py) {probes : List Probe} {relays : List Relay}
    {revivals : List Member} {timers : List Member}
    (hp : ∀ pr ∈ probes, Takes py pr.target.addr ∧ ∀ m ∈ pr.candidates, Takes py m.addr)
    (hq : ∀ q ∈ relays, q.req.Relayable py) (ht : ∀ m ∈ revivals, m.id.key?.isSome = true) :
    ({ r with probes, relays, revivals, timers } : Node).Held py :=
  h.congr rfl rfl rfl (fun p hp => ⟨p, hp, rfl⟩) hq hp ht

theorem Held.set (h : r.Held py) (hm : m.Sound py) (hid : m.id.key?.isSome = true) (k : Key) :
    (r.set k m).Held py := by
  have henc := h.encodes.set hm.good hm.encodable k
  refine ⟨⟨h.isOpen, h.own, fun p hp => ?_, h.relays⟩, h.number, henc.broadcasts, fun p hp => ?_,
    h.captured, h.targets⟩
  · rcases mem_assign hp with heq | hp
    · exact heq ▸ hm
    · exact h.members p hp
  · rcases mem_assign hp with heq | hp
    · exact heq ▸ hid
    · exact h.hashable p hp

theorem Held.merge (h : r.Held py) (hs : r.merge py u = some r') (hu : r.Fits py u) :
    r'.Held py := by
  have hclean := (clean_merge h.toClean hs).mpr hu
  have henc := h.encodes.merge hs (fun hr => ⟨(hu.recorded hr).good, (hu.recorded hr).encodable⟩)
    hu.refuted
  refine ⟨hclean, henc.number, henc.broadcasts, ?_, ?_, ?_⟩
  all_goals
    rcases merge_cases hs with ⟨rfl, -⟩ | ⟨i, -, -, -, -, rfl⟩ | ⟨k, hrec, -, hk, rfl⟩
  · exact h.hashable
  · exact h.hashable
  · intro p hp
    rcases mem_assign hp with heq | hp
    · rw [heq, hk]
      rfl
    · exact h.hashable p hp
  · exact h.captured
  · exact h.captured
  · exact h.captured
  · exact h.targets
  · exact h.targets
  · exact h.targets

/-- A run of merges of which every update fits. -/
theorem Held.final (h : r.Held py) (hu : Run.Meets (Node.merge py) (Fits py) r us) :
    (Run.final (Node.merge py) r us).Held py :=
  Run.always_iff_final.mp (Run.always_of_meets (fun _ _ _ hs h hu => h.merge hs hu)
    (fun _ h => h) h hu) us (List.prefix_refl us)

theorem Held.mark (h : r.Held py) (id : Json) (new_state from_state : State)
    (incarnation : Option Json) : (r.mark id new_state from_state incarnation).Held py := by
  unfold Node.mark
  split
  · exact h
  · split
    · exact h
    · rename_i current hl
      obtain ⟨p, hp, rfl⟩ := mem_of_lookup hl
      split
      · exact h
      · split
        · exact h
        · obtain ⟨hgood, htaken, henc⟩ := h.members p hp
          obtain ⟨hid, haddr, hinc⟩ := encodable_member.mp henc
          exact h.set (m := ⟨p.2.id, p.2.addr, new_state, p.2.incarnation⟩)
            ⟨hgood, htaken, encodable_member.mpr ⟨hid, haddr, hinc⟩⟩ (h.hashable p hp) _

/-- The resurrection of a member, whose incarnation can be counted on. -/
theorem Held.resurrect (h : r.Held py) {id : Json} (hid : id.key?.isSome = true) :
    (r.Revivable py id → (r.resurrect py id).1.Held py) ∧ (r.resurrect py id).2 = false ∧
      ((r.resurrect py id).1.Clean py → r.Revivable py id) := by
  obtain ⟨k, hk⟩ := Option.isSome_iff_exists.mp hid
  have hrev : ∀ {current}, r.members.lookup k = some current → (r.Revivable py id ↔
      (current.state = .dead → current.incarnation.SuccEncodable py.round)) := by
    intro current hl
    constructor
    · exact fun hrev hdead => hrev k current hk hl hdead
    · intro hsucc k' current' hk' hl' hdead
      obtain rfl := Option.some.inj (hk.symm.trans hk')
      obtain rfl := Option.some.inj (hl.symm.trans hl')
      exact hsucc hdead
  unfold Node.resurrect
  rw [hk]
  dsimp only
  split
  · rename_i hl
    refine ⟨fun _ => h, rfl, fun _ k' current hk' hl' => ?_⟩
    obtain rfl := Option.some.inj (hk.symm.trans hk')
    cases hl.symm.trans hl'
  · rename_i current hl
    obtain ⟨p, hp, rfl⟩ := mem_of_lookup hl
    rw [hrev hl]
    split
    · rename_i hdead
      obtain ⟨⟨haddr, hint⟩, htaken, henc⟩ := h.members p hp
      obtain ⟨hidenc, haddrenc, -⟩ := encodable_member.mp henc
      obtain ⟨i, hi, -, hkeep⟩ := isSome_succ py.round (isSome_number? hint)
      rw [hi]
      refine ⟨fun hsucc => ?_, rfl, fun hc _ j hj => ?_⟩
      · exact h.set (m := ⟨p.2.id, p.2.addr, .alive, i⟩) ⟨⟨haddr, hkeep hint⟩, htaken,
          encodable_member.mpr ⟨hidenc, haddrenc, hsucc hdead i hi⟩⟩ (h.hashable p hp) _
      · obtain rfl := Option.some.inj (hi.symm.trans hj)
        obtain ⟨q, hq, heq⟩ := exists_mem_assign k ⟨p.2.id, p.2.addr, .alive, i⟩ r.members
        have hsound := heq ▸ hc.members q hq
        exact (encodable_member.mp hsound.encodable).2.2
    · rename_i hdead
      exact ⟨fun _ => h, rfl, fun _ h => absurd h hdead⟩

/-! ### Packets -/

theorem Encodes.reply (h : r.Encodes) (type : MsgType) (hseq : msg.seq.encodable = true)
    (hus : ∀ u ∈ us, u.json.encodable = true) :
    (⟨type, msg.seq, r.me, .str "", us⟩ : Message).json.encodable = true :=
  encodable_message.mpr ⟨hseq, h.me, rfl, hus⟩

/-- The reply closes the transport, or does nothing to the node. -/
theorem Held.reply (h : r.Held py) (msg : Message) (type : MsgType) (us : List Member)
    (hus : ∀ u ∈ us, u.json.encodable = true) :
    (msg.Answerable py → (r.reply py msg type us).1 = r) ∧
      ((r.reply py msg type us).1.isOpen = true → msg.Answerable py) := by
  rcases send_cases py r msg.sender.addr ⟨type, msg.seq, r.me, .str "", us⟩ with
    ⟨hmsg, hcloses, hclosed⟩ | ⟨hnot, hsame⟩
  · refine ⟨fun hans => absurd hcloses (hans (encodable_message.mp hmsg).1), fun hopen => ?_⟩
    rw [Node.reply, hclosed] at hopen
    cases hopen
  · exact ⟨fun _ => hsame, fun _ hseq hcloses => hnot ⟨h.encodes.reply type hseq hus, hcloses⟩⟩

/-- A packet of which every update fits leaves the node clean just when what it makes the node send
does. -/
theorem Held.handle (h : r.Held py) (hu : Run.Meets (Node.merge py) (Fits py) r msg.gossip) :
    (((Run.exec (Node.merge py) r msg.gossip).isSome = true → msg.Spares py) →
      (r.handle py msg).1.Held py) ∧
    ((r.handle py msg).1.Clean py →
      (Run.exec (Node.merge py) r msg.gossip).isSome = true → msg.Spares py) := by
  have hmerged := h.final hu
  unfold Node.handle
  dsimp only
  by_cases hexec : (Run.exec (Node.merge py) r msg.gossip).isSome = true
  swap
  · rw [if_pos (Option.not_isSome_iff_eq_none.mp hexec ▸ rfl)]
    exact ⟨fun _ => hmerged, fun _ h => absurd h hexec⟩
  rw [if_neg (not_isNone hexec)]
  unfold Message.Spares
  cases msg.type with
  | ping =>
    obtain ⟨hsame, hopen⟩ :=
      hmerged.takeBroadcasts.reply msg .ack _ hmerged.encodes.takeBroadcasts.2
    refine ⟨fun hans => ?_, fun hc _ => hopen hc.isOpen⟩
    rw [hsame (hans hexec)]
    exact hmerged.takeBroadcasts
  | join =>
    obtain ⟨hsame, hopen⟩ := hmerged.reply msg .joinAck
      ((Run.final (Node.merge py) r msg.gossip).members.map Prod.snd) (by
        rw [List.forall_mem_map]
        exact fun p hp => (hmerged.members p hp).encodable)
    refine ⟨fun hans => ?_, fun hc _ => hopen hc.isOpen⟩
    rw [hsame (hans hexec)]
    exact hmerged
  | pingReq =>
    constructor
    · refine fun hrel => hmerged.tasks hmerged.captured (fun q hq => ?_) hmerged.targets
      rcases List.mem_append.mp hq with hq | hq
      · exact hmerged.relays q hq
      · rw [List.mem_singleton.mp hq]
        exact hrel hexec
    · exact fun hc _ => hc.relays _ (List.mem_append_right _ List.mem_cons_self)
  | ack | joinAck => exact ⟨fun _ => hmerged, fun _ _ => trivial⟩

/-- A well-formed message does not raise. -/
theorem raises_handle (h : r.Held py) (hw : msg.WellFormed py) : (r.handle py msg).2 = false := by
  obtain ⟨⟨hint, hseq⟩, hgossip, hto⟩ := hw
  obtain ⟨hexec, henc⟩ := exec_merge h.encodes hgossip
  have haddr := (hgossip msg.sender List.mem_cons_self).good.1
  have hkey : msg.seq.key?.isNone = false := by
    cases hj : msg.seq with
    | bool | int => rfl
    | _ =>
      rw [hj] at hint
      cases hint
  unfold Node.handle
  dsimp only
  rw [if_neg (not_isNone hexec)]
  cases msg.type with
  | ping =>
    obtain ⟨htaken, hsent⟩ := henc.takeBroadcasts
    exact send_snd (htaken.reply .ack hseq hsent) haddr hto
  | join =>
    refine send_snd (henc.reply .joinAck hseq ?_) haddr hto
    rw [List.forall_mem_map]
    exact henc.members
  | pingReq => rfl
  | ack | joinAck => exact hkey

/-! ### Steps -/

theorem mem_members (h : r.Held py) (hm : m ∈ r.members.map Prod.snd) :
    m.Sound py ∧ m.id.key?.isSome = true := by
  obtain ⟨p, hp, rfl⟩ := List.mem_map.mp hm
  exact ⟨h.members p hp, h.hashable p hp⟩

theorem next_received (r : Node) {data : ByteArray}
    (hp : (Event.received data).packet py = some msg) :
    r.next py (.received data) = some (r.handle py msg) := by
  unfold next
  dsimp only
  rw [hp]

/-- The steps of a node neither raise nor make it worse, but for harmful packets and
resurrections. -/
theorem Held.next (h : r.Held py) {raised : Bool} (hs : r.next py e = some (r', raised)) :
    (Harmless py r e → r'.Held py) ∧
      (e.WellFormed py → Addr.Printable r'.seqNo → raised = false) := by
  have hdrop : ∀ i, ({ r with probes := r.probes.eraseIdx i } : Node).Held py := fun i =>
    h.tasks (fun pr hpr => h.captured pr (List.mem_of_mem_eraseIdx hpr)) h.relays h.targets
  have hunrelayed : ∀ i, ({ r with relays := r.relays.eraseIdx i } : Node).Held py := fun i =>
    h.tasks h.captured (fun q hq => h.relays q (List.mem_of_mem_eraseIdx hq)) h.targets
  have hlost : ∀ i, ({ r with revivals := r.revivals.eraseIdx i } : Node).Held py := fun i =>
    h.tasks h.captured h.relays fun m hm => h.targets m (List.mem_of_mem_eraseIdx hm)
  cases e with
  | received data =>
    cases hp : (Event.received data).packet py with
    | none =>
      unfold Node.next at hs
      dsimp only at hs
      rw [hp] at hs
      obtain ⟨rfl, rfl⟩ := Prod.mk.inj (Option.some.inj hs)
      exact ⟨fun _ => h, fun _ _ => rfl⟩
    | some msg =>
      replace hs := Option.some.inj ((next_received r hp).symm.trans hs)
      refine ⟨fun hharm => ?_, fun hw _ => ?_⟩
      · obtain ⟨hfits, hspares⟩ := hharm msg hp
        have := (h.handle hfits).1 hspares
        rwa [hs] at this
      · have := raises_handle h (hw msg hp)
        rwa [hs] at this
  | probe i =>
    obtain ⟨target, ht, hs⟩ := Option.bind_eq_some_iff.mp hs
    have hto := (mem_members h (List.mem_of_mem_filter (List.mem_of_getElem? ht))).1.taken
    have hmem : ∀ m ∈ (r.members.map Prod.snd).filter fun m => m.state ≠ .dead,
        Takes py m.addr := fun m hm => (mem_members h (List.mem_of_mem_filter hm)).1.taken
    have hsnd := fun hseq => request_snd h.takeBroadcasts.encodes hto hseq .ping (.str "")
      r.takeBroadcasts.1 rfl h.encodes.takeBroadcasts.2
    dsimp only at hs
    rw [request_fst hto.not_closes] at hs
    have hheld := h.takeBroadcasts.count (r.seqNo + 1)
    split at hs
    · rename_i hraised
      obtain ⟨rfl, rfl⟩ := Prod.mk.inj (Option.some.inj hs)
      refine ⟨fun _ => hheld, fun _ hseq => ?_⟩
      exact hraised.symm.trans (hsnd hseq)
    · obtain ⟨rfl, rfl⟩ := Prod.mk.inj (Option.some.inj hs)
      refine ⟨fun _ => hheld.tasks (fun pr hpr => ?_) h.relays h.targets, fun _ _ => rfl⟩
      rcases List.mem_append.mp hpr with hpr | hpr
      · exact h.captured pr hpr
      · rw [List.mem_singleton.mp hpr]
        exact ⟨hto, hmem⟩
  | answered i =>
    obtain ⟨_, -, hs⟩ := Option.bind_eq_some_iff.mp hs
    obtain ⟨rfl, rfl⟩ := Prod.mk.inj (Option.some.inj hs)
    exact ⟨fun _ => hdrop i, fun _ _ => rfl⟩
  | unanswered i picks =>
    obtain ⟨pr, hpr, hs⟩ := Option.bind_eq_some_iff.mp hs
    obtain ⟨htarget, hcaptured⟩ := h.captured pr (List.mem_of_getElem? hpr)
    dsimp only at hs
    obtain ⟨-, hs⟩ := Option.ite_none_right_eq_some.mp hs
    set sample := picks.filterMap fun j => (pr.candidates.filter fun m => m.id.ne pr.target.id)[j]?
      with hsample
    -- a helper is one of the candidates
    have hto : ∀ m ∈ sample, Takes py m.addr := by
      intro m hm
      obtain ⟨j, -, hj⟩ := List.mem_filterMap.mp hm
      exact hcaptured m (List.mem_of_mem_filter (List.mem_of_getElem? hj))
    split at hs
    · obtain ⟨rfl, rfl⟩ := Prod.mk.inj (Option.some.inj hs)
      exact ⟨fun _ => (hdrop i).mark _ _ _ _, fun _ _ => rfl⟩
    · have hsnd := askAll_snd h.encodes hto (encodable_of_splitAddr htarget.isSome)
      rw [askAll_fst hto] at hs
      have hheld := h.count (r.seqNo + sample.length)
      split at hs
      · rename_i hraised
        obtain ⟨rfl, rfl⟩ := Prod.mk.inj (Option.some.inj hs)
        refine ⟨fun _ => (hdrop i).count _, fun _ hseq => ?_⟩
        exact hraised.symm.trans (hsnd hseq)
      · obtain ⟨rfl, rfl⟩ := Prod.mk.inj (Option.some.inj hs)
        refine ⟨fun _ => hheld.tasks (fun pr' hpr' => ?_) h.relays h.targets, fun _ _ => rfl⟩
        rcases List.mem_or_eq_of_mem_set hpr' with hpr' | rfl
        · exact h.captured pr' hpr'
        · exact ⟨htarget, hcaptured⟩
  | failed i =>
    obtain ⟨pr, -, hs⟩ := Option.bind_eq_some_iff.mp hs
    obtain ⟨-, hs⟩ := Option.ite_none_right_eq_some.mp hs
    obtain ⟨rfl, rfl⟩ := Prod.mk.inj (Option.some.inj hs)
    exact ⟨fun _ => (hdrop i).mark _ _ _ _, fun _ _ => rfl⟩
  | relay i =>
    obtain ⟨q, hq, hs⟩ := Option.bind_eq_some_iff.mp hs
    obtain ⟨-, hs⟩ := Option.ite_none_right_eq_some.mp hs
    have hrel := h.relays q (List.mem_of_getElem? hq)
    dsimp only at hs
    rw [request_fst hrel.1] at hs
    obtain ⟨rfl, rfl⟩ := Prod.mk.inj (Option.some.inj hs)
    refine ⟨fun _ => (h.count (r.seqNo + 1)).tasks h.captured (fun q' hq' => ?_) h.targets,
      fun _ _ => rfl⟩
    split at hq'
    · exact h.relays q' (List.mem_of_mem_eraseIdx hq')
    · rcases List.mem_or_eq_of_mem_set hq' with hq' | rfl
      · exact h.relays q' hq'
      · exact hrel
  | relayed i =>
    obtain ⟨q, hq, hs⟩ := Option.bind_eq_some_iff.mp hs
    obtain ⟨-, hs⟩ := Option.ite_none_right_eq_some.mp hs
    have hrel := h.relays q (List.mem_of_getElem? hq)
    obtain ⟨hsame, -⟩ := (hunrelayed i).reply q.req .ack []
      fun _ hu => absurd hu List.not_mem_nil
    dsimp only at hs
    rw [hsame hrel.2] at hs
    obtain ⟨rfl, rfl⟩ := Prod.mk.inj (Option.some.inj hs)
    exact ⟨fun _ => hunrelayed i, fun _ _ => rfl⟩
  | unrelayed i =>
    obtain ⟨q, -, hs⟩ := Option.bind_eq_some_iff.mp hs
    obtain ⟨-, hs⟩ := Option.ite_none_right_eq_some.mp hs
    obtain ⟨rfl, rfl⟩ := Prod.mk.inj (Option.some.inj hs)
    exact ⟨fun _ => hunrelayed i, fun _ _ => rfl⟩
  | resurrect i =>
    obtain ⟨target, ht, hs⟩ := Option.bind_eq_some_iff.mp hs
    obtain ⟨hsound, hid⟩ := mem_members h (List.mem_of_mem_filter (List.mem_of_getElem? ht))
    have hsnd := fun hseq => request_snd h.encodes hsound.taken hseq .ping (.str "") [] rfl
      fun _ hu => absurd hu List.not_mem_nil
    dsimp only at hs
    rw [request_fst hsound.taken.not_closes] at hs
    have hheld := h.count (r.seqNo + 1)
    split at hs
    · rename_i hraised
      obtain ⟨rfl, rfl⟩ := Prod.mk.inj (Option.some.inj hs)
      refine ⟨fun _ => hheld, fun _ hseq => ?_⟩
      exact hraised.symm.trans (hsnd hseq)
    · obtain ⟨rfl, rfl⟩ := Prod.mk.inj (Option.some.inj hs)
      refine ⟨fun _ => hheld.tasks h.captured h.relays fun m hm => ?_, fun _ _ => rfl⟩
      rcases List.mem_append.mp hm with hm | hm
      · exact h.targets m hm
      · exact List.mem_singleton.mp hm ▸ hid
  | revived i =>
    obtain ⟨target, ht, hs⟩ := Option.bind_eq_some_iff.mp hs
    obtain ⟨hheld, hraised, -⟩ :=
      (hlost i).resurrect (h.targets target (List.mem_of_getElem? ht))
    rw [Option.some.inj hs] at hheld hraised
    exact ⟨fun hharm => hheld (hharm target ht), fun _ _ => hraised⟩
  | lost i =>
    obtain ⟨_, -, hs⟩ := Option.bind_eq_some_iff.mp hs
    obtain ⟨rfl, rfl⟩ := Prod.mk.inj (Option.some.inj hs)
    exact ⟨fun _ => hlost i, fun _ _ => rfl⟩
  | suspicionTimer k =>
    obtain ⟨member, -, hs⟩ := Option.bind_eq_some_iff.mp hs
    obtain ⟨rfl, rfl⟩ := Prod.mk.inj (Option.some.inj hs)
    have hrest : ({ r with timers := r.timers.eraseIdx k } : Node).Held py :=
      h.tasks h.captured h.relays h.targets
    exact ⟨fun _ => hrest.mark _ _ _ _, fun _ _ => rfl⟩

theorem Held.holds (h : r.Held py) : r.Holds py :=
  ⟨h.good, h.isOpen, fun _ _ _ hw hs => (h.next hs).2 hw⟩

theorem Held.step (hs : r.step py e = some r') (h : r.Held py) (hharm : Harmless py r e) :
    r'.Held py := by
  obtain ⟨⟨r'', raised⟩, hnext, rfl⟩ := Option.map_eq_some_iff.mp hs
  exact (h.next hnext).1 hharm

/-- Harmless steps are the ones that leave the node clean, wherever a packet ends. -/
theorem harmless_iff (h : r.Held py) : Harmless py r e ↔ CutShort py r e := by
  have hiff := fun us => @Run.always_iff_meets _ _ (Node.merge py) (fun _ => True) (Clean py)
    (Fits py) (fun _ _ _ _ _ => trivial) (fun _ _ _ hs _ hc => clean_merge hc hs) r trivial
    h.toClean us
  constructor
  · intro hharm
    refine ⟨fun r' raised hs => ((h.next hs).1 hharm).toClean, fun msg hp us hpre => ?_⟩
    cases e with
    | received data => exact Run.always_iff_final.mp ((hiff _).mpr (hharm msg hp).1) us hpre
    | _ => cases hp
  · rintro ⟨hnext, hcut⟩
    cases e with
    | received data =>
      intro msg hp
      have hfits := (hiff _).mp (Run.always_iff_final.mpr (hcut msg hp))
      exact ⟨hfits, (h.handle hfits).2 (hnext _ _ (next_received r hp))⟩
    | revived i =>
      intro target ht
      have hheld : ({ r with revivals := r.revivals.eraseIdx i } : Node).Held py :=
        h.tasks h.captured h.relays fun m hm => h.targets m (List.mem_of_mem_eraseIdx hm)
      have hs : r.next py (.revived i) =
          some ({ r with revivals := r.revivals.eraseIdx i }.resurrect py target.id) :=
        Option.bind_eq_some_iff.mpr ⟨target, ht, rfl⟩
      exact (hheld.resurrect (h.targets target (List.mem_of_getElem? ht))).2.2 (hnext _ _ hs)
    | _ => trivial

theorem held_fresh (py : Python) (id addr : String) (indirectPingCount : ℕ) :
    (fresh id addr indirectPingCount).Held py where
  isOpen := rfl
  own := encodable_int.mpr (Addr.printable_port (by decide))
  members p hp := by cases hp
  relays q hq := by cases hq
  number := rfl
  broadcasts p hp := by cases hp
  hashable p hp := by cases hp
  captured pr hpr := by cases hpr
  targets m hm := by cases hm

/-- **Malformed packets break nothing**, just when every update of them that is recorded is sound,
every rumor that is refuted can be counted on, as is every record that is resurrected, and no reply
or relay is sent to where that closes the transport: exactly then, in all states of the run, every
record is good, the transport is open and no probe, no resurrection and no well-formed message
raises, and every packet leaves the node clean wherever its list of updates might have ended. -/
theorem packets_exact (py : Python) (id addr : String) (indirectPingCount : ℕ) (es : List Event) :
    Run.Meets (step py) (Harmless py) (fresh id addr indirectPingCount) es ↔
      Run.Always (step py) (Holds py) (fresh id addr indirectPingCount) es ∧
        Run.Meets (step py) (CutShort py) (fresh id addr indirectPingCount) es := by
  have hfresh := held_fresh py id addr indirectPingCount
  have hiff : Run.Meets (step py) (Harmless py) (fresh id addr indirectPingCount) es ↔
      Run.Meets (step py) (CutShort py) (fresh id addr indirectPingCount) es :=
    Run.meets_congr (fun _ _ _ hs h hharm => Held.step hs h hharm) (fun _ _ h => harmless_iff h)
      hfresh es
  refine ⟨fun h => ⟨?_, hiff.mp h⟩, fun h => hiff.mpr h.2⟩
  exact Run.always_of_meets (fun s e s' hs h hharm => Held.step hs h hharm)
    (fun s h => h.holds) hfresh h

/-- One datagram makes a node record a member at an address that `split_addr` rejects. -/
theorem packet_breaks : ¬ ∀ (py : Python) (id addr : String) (indirectPingCount : ℕ)
    (es : List Event), Run.Always (step py) (Holds py) (fresh id addr indirectPingCount) es := by
  obtain ⟨data, -⟩ : ∃ data, data = ("\x7b\"type\": \"ack\", \"seq\": 1, " ++
    "\"sender\": \x7b\"id\": \"b\", \"addr\": \"nocolon\", \"state\": 0, " ++
    "\"incarnation\": 0\x7d, \"target_addr\": \"\", \"updates\": []\x7d").toUTF8 := ⟨_, rfl⟩
  let value : Json := .obj [("type", .str "ack"), ("seq", .int 1),
    ("sender", .obj [("id", .str "b"), ("addr", .str "nocolon"), ("state", .int 0),
      ("incarnation", .int 0)]),
    ("target_addr", .str ""), ("updates", .arr [])]
  let py : Python := ⟨fun bytes => if bytes = data then some value else none, .finite,
    fun _ => .sent⟩
  intro h
  have hrun := h py "a" "h:1" 3 [.received data]
  have hpacket : (Event.received data).packet py = decode value := by
    show (if data = data then some value else none).bind decode = _
    rw [if_pos rfl, Option.bind_some]
  let sender : Member := ⟨.str "b", .str "nocolon", .alive, .int 0⟩
  have hdecode : decode value = some ⟨.ack, .int 1, sender, .str "", []⟩ := rfl
  have hstep : step py (fresh "a" "h:1" 3) (.received data) = some
      (handle py (fresh "a" "h:1" 3) ⟨.ack, .int 1, sender, .str "", []⟩).1 := by
    rw [step, next, hpacket, hdecode]
    rfl
  have hgood := (hrun.2 _ hstep).1
  have haddr := (hgood (.str "b", sender) List.mem_cons_self).1
  exact absurd haddr (by decide)

end Node

end Swim.Untyped
