/-
SWIM packets on the wire (`Message.encode`).

* `Value`, `Value.asdict` — what a message is in Python, and what `asdict` makes of it;
  `Value.toJson` — what `json.dumps` writes of that: enumerations as their values, tuples as
  arrays;
* `Message.encode`, `Message.decode` — with `json.dumps` and `json.loads` as parameters;
* `toJson_value`, `decode_json` — the dictionary of a message, from which the decoder gets
  every field back;
* **`decode_undoes_encode`** — so a message is decoded as it was encoded, if `json` gives its
  dictionary back.
-/
import Dssd.SwimPackets

namespace Swim.Untyped

/-! ### Python values -/

/-- What `asdict` and `json.dumps` are given: a JSON value, a member of an enumeration with its
value, a tuple, a dictionary or an instance of a dataclass. -/
inductive Value
  | json (x : Json)
  | strEnum (value : String)
  | intEnum (value : ℤ)
  | tuple (items : List Value)
  | dict (items : List (String × Value))
  | dataclass (fields : List (String × Value))

namespace Value

mutual

/-- `asdict(x)` -/
def asdict : Value → Value
  | tuple items => tuple (asdictItems items)
  | dict items => dict (asdictFields items)
  | dataclass fields => dict (asdictFields fields)
  | x => x

def asdictItems : List Value → List Value
  | [] => []
  | x :: items => asdict x :: asdictItems items

def asdictFields : List (String × Value) → List (String × Value)
  | [] => []
  | (name, x) :: fields => (name, asdict x) :: asdictFields fields

end

mutual

/-- The JSON value that `json.dumps` writes; `none` when it raises. -/
def toJson : Value → Option Json
  | json x => some x
  | strEnum value => some (.str value)
  | intEnum value => some (.int value)
  | tuple items => (toJsonItems items).map .arr
  | dict items => (toJsonFields items).map .obj
  | dataclass _ => none

def toJsonItems : List Value → Option (List Json)
  | [] => some []
  | x :: items => do return (← toJson x) :: (← toJsonItems items)

def toJsonFields : List (String × Value) → Option (List (String × Json))
  | [] => some []
  | (name, x) :: fields => do return (name, ← toJson x) :: (← toJsonFields fields)

end

end Value

/-! ### Messages -/

/-- A `Member` as an instance of its class. -/
def Member.value (m : Member) : Value :=
  .dataclass [("id", .json m.id), ("addr", .json m.addr), ("state", .intEnum m.state.severity),
    ("incarnation", .json m.incarnation)]

/-- A `Message` as an instance of its class. -/
def Message.value (msg : Message) : Value :=
  .dataclass [("type", .strEnum msg.type.value), ("seq", .json msg.seq),
    ("sender", msg.sender.value), ("target_addr", .json msg.targetAddr),
    ("updates", .tuple (msg.updates.map Member.value))]

/-- `encode()`, where `dumps` is `json.dumps`; `none` when it raises. -/
def Message.encode (dumps : Json → String) (msg : Message) : Option ByteArray :=
  (msg.value.asdict.toJson).map fun x => (dumps x).toUTF8

/-- `Message.decode(data)`, where `loads` is `json.loads`; `none` when it raises. -/
def Message.decode (loads : ByteArray → Option Json) (data : ByteArray) : Option Message :=
  (loads data).bind Untyped.decode

open Value (asdict asdictItems asdictFields toJson toJsonItems toJsonFields)

theorem toJson_member (m : Member) : m.value.asdict.toJson = some m.json := rfl

theorem toJsonItems_updates (us : List Member) :
    toJsonItems (asdictItems (us.map Member.value)) = some (us.map Member.json) := by
  induction us with
  | nil => rfl
  | cons u us ih =>
    rw [List.map_cons, asdictItems, toJsonItems, toJson_member, ih]
    rfl

/-- What `json.dumps` is given of a message. -/
theorem toJson_value (msg : Message) : msg.value.asdict.toJson = some msg.json := by
  have hdict : msg.value.asdict = .dict [("type", .strEnum msg.type.value), ("seq", .json msg.seq),
      ("sender", msg.sender.value.asdict), ("target_addr", .json msg.targetAddr),
      ("updates", .tuple (asdictItems (msg.updates.map Member.value)))] := rfl
  simp only [hdict, toJson, toJsonFields, toJson_member, toJsonItems_updates, Option.map_some]
  rfl

theorem ofJson_severity (s : State) : State.ofJson (.int s.severity) = some s := by
  cases s <;> decide

theorem ofJson_value (t : MsgType) : MsgType.ofJson (.str t.value) = some t := by
  cases t <;> rfl

theorem member_json (m : Member) : member m.json = some m := by
  show (State.ofJson (.int m.state.severity)).bind _ = _
  rw [ofJson_severity]
  rfl

theorem mapM_member_json (us : List Member) : (us.map Member.json).mapM member = some us := by
  induction us with
  | nil => rfl
  | cons u us ih =>
    rw [List.map_cons, List.mapM_cons, member_json, ih]
    rfl

theorem decode_json (msg : Message) : Untyped.decode msg.json = some msg := by
  show (MsgType.ofJson (.str msg.type.value)).bind _ = _
  rw [ofJson_value]
  show (member msg.sender.json).bind _ = _
  rw [member_json]
  show ((List.map Member.json msg.updates).mapM member).bind _ = _
  rw [mapM_member_json]
  rfl

/-! ### There and back -/

/-- `json.loads` gives back what `json.dumps` has written of the value. -/
def Restores (dumps : Json → String) (loads : ByteArray → Option Json) (x : Json) : Prop :=
  loads (dumps x).toUTF8 = some x

variable {dumps : Json → String} {loads : ByteArray → Option Json} {msg : Message}

theorem encode_eq (dumps : Json → String) (msg : Message) :
    msg.encode dumps = some (dumps msg.json).toUTF8 := by
  rw [Message.encode, toJson_value]
  rfl

theorem decode_encode (hjson : Restores dumps loads msg.json) :
    (msg.encode dumps).bind (Message.decode loads) = some msg := by
  rw [encode_eq, Option.bind_some, Message.decode, hjson]
  exact decode_json msg

/-- A node that receives what another one has encoded handles the message that was sent. -/
theorem packet_encode {py : Python} (hjson : Restores dumps py.loads msg.json) {data : ByteArray}
    (h : msg.encode dumps = some data) : (Event.received data).packet py = some msg := by
  have hback := decode_encode hjson
  rwa [h] at hback

/-- **`Message.decode` undoes `Message.encode`**, for messages of any length and with any JSON
values in their fields, of which `json` restores the dictionary; so a message that was decoded is
decoded again from its own encoding, whatever bytes it came from. -/
theorem decode_undoes_encode (hjson : Restores dumps loads msg.json) :
    (msg.encode dumps).bind (Message.decode loads) = some msg ∧
    ∀ data, Message.decode loads data = some msg →
      ((Message.decode loads data).bind (Message.encode dumps)).bind (Message.decode loads) =
        some msg := by
  refine ⟨decode_encode hjson, fun data hdata => ?_⟩
  rw [hdata, Option.bind_some, decode_encode hjson]

/-- A ping with gossip about another member. -/
def pingMessage : Message :=
  ⟨.ping, .int 1, ⟨.str "a", .str "h:1", .alive, .int 0⟩, .str "",
    [⟨.str "b", .str "h:2", .suspect, .int 3⟩]⟩

/-- What `json.dumps` writes of it. -/
def pingText : String :=
  "\x7b\"type\": \"ping\", \"seq\": 1, \"sender\": \x7b\"id\": \"a\", \"addr\": \"h:1\", " ++
  "\"state\": 0, \"incarnation\": 0\x7d, \"target_addr\": \"\", \"updates\": [" ++
  "\x7b\"id\": \"b\", \"addr\": \"h:2\", \"state\": 1, \"incarnation\": 3\x7d]\x7d"

theorem decode_undoes_encode_ping : (pingMessage.encode fun _ => pingText).bind
    (Message.decode fun data =>
      if data.toList = pingText.toUTF8.toList then some pingMessage.json else none) =
    some pingMessage := by
  have hjson : Restores (fun _ => pingText)
      (fun data => if data.toList = pingText.toUTF8.toList then some pingMessage.json else none)
      pingMessage.json := if_pos rfl
  exact (decode_undoes_encode hjson).1

end Swim.Untyped
