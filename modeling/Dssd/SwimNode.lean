/-
SWIM membership (`swim.py`): the records of a node and the rule by which gossip
changes them.

* `State`, `Member` and `supersedes`, the conflict rule;
* `Node` — what a started node knows and still has to pass on, and the suspicion
  timers it has started;
* `Node.set` and `Node.merge`, which no `await` interrupts.
-/
import Dssd.Dict
import Mathlib.Data.Int.Order.Basic

namespace Swim

inductive State
  | alive
  | suspect
  | dead
  deriving DecidableEq, Repr

/-- The value of the `IntEnum`, which doubles as severity. -/
def State.severity : State → ℕ
  | alive => 0
  | suspect => 1
  | dead => 2

theorem State.severity_injective : Function.Injective severity := by
  intro s s' h
  cases s <;> cases s' <;> first | rfl | exact absurd h (by decide)

structure Member where
  id : String
  addr : String
  state : State
  incarnation : ℤ
  deriving DecidableEq, Repr

/-- `supersedes(update, current)` -/
def supersedes (update current : Member) : Prop :=
  if update.state = .dead then current.state ≠ .dead
  else if update.incarnation ≠ current.incarnation then update.incarnation > current.incarnation
  else update.state.severity > current.state.severity

instance (update current : Member) : Decidable (supersedes update current) := by
  unfold supersedes
  infer_instance

/-- A started node: `cfg.id` and its bound address, `_members` (everyone but itself),
`_incarnation`, `_broadcasts` (the latest update about each member and the times it was sent),
and the records its `_suspicion_timer` tasks were started with. -/
structure Node where
  id : String
  addr : String
  members : Dict Member
  incarnation : ℤ
  broadcasts : Dict (Member × ℕ)
  timers : List Member

namespace Node

/-- `_me()` -/
def me (r : Node) : Member := ⟨r.id, r.addr, .alive, r.incarnation⟩

/-- `_set(member)` -/
def set (r : Node) (member : Member) : Node :=
  let old := r.members.get? member.id
  { r with
    members := r.members.set member.id member
    broadcasts := r.broadcasts.set member.id (member, 0)
    timers :=
      if member.state = .suspect ∧ old.map Member.state ≠ some .suspect then r.timers ++ [member]
      else r.timers }

/-- `_merge(update)` -/
def merge (r : Node) (update : Member) : Node :=
  if update.id = r.id then
    if update.state ≠ .alive ∧ update.incarnation ≥ r.incarnation then
      let r := { r with incarnation := update.incarnation + 1 }
      { r with broadcasts := r.broadcasts.set r.id (r.me, 0) }
    else r
  else
    match r.members.get? update.id with
    | none => if update.state ≠ .dead then r.set update else r
    | some current => if supersedes update current then r.set update else r

/-- Merge updates as they come in. -/
def mergeAll (r : Node) (updates : List Member) : Node := updates.foldl merge r

@[simp] theorem get?_members_set (r : Node) (member : Member) :
    (r.set member).members.get? member.id = some member :=
  Dict.get?_set_self _ _ _

@[simp] theorem id_merge (r : Node) (update : Member) : (r.merge update).id = r.id := by
  unfold merge
  split
  · split <;> rfl
  · split
    · split <;> rfl
    · split <;> rfl

/-- What is recorded of a known member after an update about it. -/
theorem get?_merge {r : Node} {update current : Member} (hid : update.id ≠ r.id)
    (hc : r.members.get? update.id = some current) : (r.merge update).members.get? update.id =
      some (if supersedes update current then update else current) := by
  rw [merge, if_neg hid, hc]
  dsimp only
  split
  · exact r.get?_members_set update
  · exact hc

end Node

end Swim
