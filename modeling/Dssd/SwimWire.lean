/-
SWIM packets (`Message.decode`).

* `Json` — what `json.loads` returns, with Python's comparisons and `+ 1`; `none` where
  they raise; `Json.encodable` — what `json.dumps` does not raise for;
* `Untyped.Member`, `Untyped.Message` — members and messages with fields of any JSON
  value, and their dictionaries;
* `Untyped.decode` — the decoder, which looks at the shape of a packet, and at the
  values of its enumerations only.
-/
import Dssd.SwimProcess
import Mathlib.Data.Rat.Defs

namespace Swim

/-! ### JSON values -/

/-- The value of a Python number. -/
inductive Number
  | finite (q : ℚ)
  | infinite (positive : Bool)
  | nan
  deriving DecidableEq

namespace Number

/-- `x == y` -/
def eq (x y : Number) : Bool := x ≠ .nan ∧ x = y

/-- `x > y` -/
def gt : Number → Number → Bool
  | finite x, finite y => y < x
  | finite _, infinite positive => !positive
  | infinite positive, finite _ => positive
  | infinite positive, infinite positive' => positive && !positive'
  | _, _ => false

/-- `x >= y` -/
def ge (x y : Number) : Bool := x.gt y || x.eq y

end Number

inductive Json
  | null
  | bool (b : Bool)
  | int (i : ℤ)
  | float (x : Number)
  | str (s : String)
  | arr (items : List Json)
  | obj (fields : List (String × Json))

/-- A hashable JSON value, as a key of a dictionary. -/
inductive Key
  | null
  | number (x : Number)
  | str (s : String)
  deriving DecidableEq

namespace Json

/-- The numbers among the values; `bool` is a subclass of `int`. -/
def number? : Json → Option Number
  | bool b => some (.finite (if b then 1 else 0))
  | int i => some (.finite i)
  | float x => some x
  | _ => none

/-- `isinstance(x, int)` -/
def isInt : Json → Bool
  | bool _ => true
  | int _ => true
  | _ => false

/-- The key that a value is; `none` if it is not hashable. -/
def key? : Json → Option Key
  | null => some .null
  | str s => some (.str s)
  | arr _ => none
  | obj _ => none
  | x => x.number?.map .number

mutual

/-- Equality inside of lists and dictionaries, where the one `NaN` is the same object as itself. -/
def same : Json → Json → Bool
  | null, null => true
  | str s, str s' => s = s'
  | arr items, arr items' => sameItems items items'
  | obj fields, obj fields' => fields.length = fields'.length && sameFields fields fields'
  | bool b, y => y.number? = some (.finite (if b then 1 else 0))
  | int i, y => y.number? = some (.finite i)
  | float x, y => y.number? = some x
  | _, _ => false

def sameItems : List Json → List Json → Bool
  | [], [] => true
  | x :: items, y :: items' => same x y && sameItems items items'
  | _, _ => false

/-- The second dictionary has the same under all keys of the first. -/
def sameFields : List (String × Json) → List (String × Json) → Bool
  | [], _ => true
  | (k, x) :: fields, fields' =>
    (match fields'.lookup k with
      | some y => same x y
      | none => false) && sameFields fields fields'

end

/-- `x != y` -/
def ne (x y : Json) : Bool :=
  match x.number?, y.number? with
  | some a, some b => !a.eq b
  | _, _ => !same x y

mutual

/-- `x > y` -/
def gt : Json → Json → Option Bool
  | str s, str s' => some (decide (s' < s))
  | arr items, arr items' => gtItems items items'
  | bool b, y => y.number?.map (Number.finite (if b then 1 else 0)).gt
  | int i, y => y.number?.map (Number.finite i).gt
  | float x, y => y.number?.map x.gt
  | _, _ => none

/-- The first items that differ decide. -/
def gtItems : List Json → List Json → Option Bool
  | [], _ => some false
  | _ :: _, [] => some true
  | x :: items, y :: items' => if same x y then gtItems items items' else gt x y

end

/-- `x >= y` for a number `y` -/
def ge (x y : Json) : Option Bool := do return (← x.number?).ge (← y.number?)

/-- `x + 1`, where `round` gives the nearest double. -/
def succ (round : ℚ → Number) : Json → Option Json
  | bool b => some (int (if b then 2 else 1))
  | int i => some (int (i + 1))
  | float (.finite q) => some (float (round (q + 1)))
  | float x => some (float x)
  | _ => none

mutual

/-- Whether `json.dumps` writes the value: `str` raises for an integer that is too long. -/
def encodable : Json → Bool
  | int i => decide (Addr.Printable i)
  | arr items => encodableItems items
  | obj fields => encodableFields fields
  | _ => true

def encodableItems : List Json → Bool
  | [] => true
  | x :: items => encodable x && encodableItems items

def encodableFields : List (String × Json) → Bool
  | [] => true
  | (_, x) :: fields => encodable x && encodableFields fields

end

/-- If there is an `x + 1`, `json.dumps` writes it. -/
def SuccEncodable (round : ℚ → Number) (x : Json) : Prop :=
  ∀ y, x.succ round = some y → y.encodable = true

/-- `x[name]` -/
def field (x : Json) (name : String) : Option Json :=
  match x with
  | obj fields => fields.lookup name
  | _ => none

/-- What `for` runs through. -/
def iter : Json → Option (List Json)
  | arr items => some items
  | obj fields => some (fields.map fun f => str f.1)
  | str s => some (s.toList.map fun c => str (String.singleton c))
  | _ => none

end Json

/-- `State(x)` -/
def State.ofJson (x : Json) : Option State :=
  if x.number? = some (.finite 0) then some .alive
  else if x.number? = some (.finite 1) then some .suspect
  else if x.number? = some (.finite 2) then some .dead
  else none

/-- `MsgType(x)` -/
def MsgType.ofJson : Json → Option MsgType
  | .str "ping" => some .ping
  | .str "ping-req" => some .pingReq
  | .str "ack" => some .ack
  | .str "join" => some .join
  | .str "join-ack" => some .joinAck
  | _ => none

/-- The value of the `str` enumeration. -/
def MsgType.value : MsgType → String
  | ping => "ping"
  | pingReq => "ping-req"
  | ack => "ack"
  | join => "join"
  | joinAck => "join-ack"

/-! ### Packets -/

namespace Untyped

structure Member where
  id : Json
  addr : Json
  state : State
  incarnation : Json

structure Message where
  type : MsgType
  seq : Json
  sender : Member
  targetAddr : Json
  updates : List Member

def Message.gossip (msg : Message) : List Member := msg.sender :: msg.updates

/-- The dictionary of a member. -/
def Member.json (m : Member) : Json :=
  .obj [("id", m.id), ("addr", m.addr), ("state", .int m.state.severity),
    ("incarnation", m.incarnation)]

/-- The dictionary of a message. -/
def Message.json (msg : Message) : Json :=
  .obj [("type", .str msg.type.value), ("seq", msg.seq), ("sender", msg.sender.json),
    ("target_addr", msg.targetAddr), ("updates", .arr (msg.updates.map Member.json))]

/-- `member(d)` -/
def member (d : Json) : Option Member := do
  return ⟨← d.field "id", ← d.field "addr", ← State.ofJson (← d.field "state"),
    ← d.field "incarnation"⟩

/-- `Message.decode` of what `json.loads` returns; `none` when it raises. -/
def decode (obj : Json) : Option Message := do
  return {
    type := ← MsgType.ofJson (← obj.field "type")
    seq := ← obj.field "seq"
    sender := ← member (← obj.field "sender")
    targetAddr := ← obj.field "target_addr"
    updates := ← (← (← obj.field "updates").iter).mapM member }

/-- `split_addr(addr)` -/
def splitAddr : Json → Option (String × ℤ)
  | .str addr => Addr.splitAddr addr
  | _ => none

/-! ### What can be written -/

theorem encodable_int {i : ℤ} : (Json.int i).encodable = true ↔ Addr.Printable i := by
  rw [Json.encodable, decide_eq_true_iff]

theorem encodable_of_splitAddr {addr : Json} (h : (splitAddr addr).isSome = true) :
    addr.encodable = true := by
  cases addr with
  | str => rfl
  | _ => cases h

theorem encodable_member {m : Member} : m.json.encodable = true ↔
    m.id.encodable = true ∧ m.addr.encodable = true ∧ m.incarnation.encodable = true := by
  have hstate : Addr.Printable m.state.severity :=
    Addr.printable_port (by cases m.state <;> decide)
  show (m.id.encodable && (m.addr.encodable && (decide (Addr.Printable m.state.severity) &&
    (m.incarnation.encodable && true)))) = true ↔ _
  simp [hstate]

theorem encodableItems_iff {items : List Json} :
    Json.encodableItems items = true ↔ ∀ x ∈ items, x.encodable = true := by
  induction items with
  | nil => simp [Json.encodableItems]
  | cons x items ih => rw [Json.encodableItems, Bool.and_eq_true, ih, List.forall_mem_cons]

theorem encodable_message {msg : Message} : msg.json.encodable = true ↔
    msg.seq.encodable = true ∧ msg.sender.json.encodable = true ∧
      msg.targetAddr.encodable = true ∧ ∀ u ∈ msg.updates, u.json.encodable = true := by
  show (true && (msg.seq.encodable && (msg.sender.json.encodable && (msg.targetAddr.encodable &&
    (Json.encodableItems (msg.updates.map Member.json) && true))))) = true ↔ _
  simp only [Bool.true_and, Bool.and_true, Bool.and_eq_true, encodableItems_iff,
    List.forall_mem_map]

end Untyped

end Swim
