/-
The world of the sharded simulation: a grid of shards and agents that move at
constant velocity and bounce off the edges (`sharding/world.py`), and the
`agents` dict of a shard.

Coordinates are rationals where the source has floats.

* `GridConfig`, `shardIdFor`, `allShardIds`, `AgentState`; no shard id occurs twice
  (`nodup_allShardIds`);
* `Registry` — a dict from ids to the agents that carry them, in insertion
  order, with `Registry.set`, `Registry.pop` and `Registry.step`;
* `Registry.ofList_agents` — a registry survives being written as a list of its
  values and read back, which is what a snapshot does.
-/
import Mathlib.Data.Rat.Floor
import Mathlib.Data.List.Nodup
import Mathlib.Data.List.Induction

namespace Region

structure GridConfig where
  width : ℚ
  height : ℚ
  cols : ℕ
  rows : ℕ
  deriving DecidableEq, Repr

/-- `min(max(int(v // (size / n)), 0), n - 1)` -/
def cellOf (v size : ℚ) (n : ℕ) : ℤ := min (max ⌊v / (size / n)⌋ 0) (n - 1)

/-- `shard_id_for(x, y, grid)`: points outside the world clamp to the edge shard. -/
def shardIdFor (x y : ℚ) (grid : GridConfig) : String :=
  toString (cellOf y grid.height grid.rows) ++ "-" ++ toString (cellOf x grid.width grid.cols)

/-- `all_shard_ids(grid)` -/
def allShardIds (grid : GridConfig) : List String :=
  (List.range grid.rows).flatMap fun row =>
    (List.range grid.cols).map fun col => toString row ++ "-" ++ toString col

/-- Two shard ids are the same only if row and column are. -/
theorem shardId_inj {r r' c c' : ℕ}
    (h : toString r ++ "-" ++ toString c = toString r' ++ "-" ++ toString c') :
    r = r' ∧ c = c' := by
  -- a number has no dash in it
  have hdigits : ∀ n : ℕ, ∀ x ∈ Nat.toDigits 10 n, (x != '-') = true := by
    intro n x hx
    have hx' := Nat.isDigit_of_mem_toDigits (by decide) (by decide) hx
    by_contra hdash
    obtain rfl : x = '-' := by simpa using hdash
    exact absurd hx' (by decide)
  have hinj : ∀ {m n : ℕ}, Nat.toDigits 10 m = Nat.toDigits 10 n → m = n := by
    intro m n hmn
    rw [← Nat.ofDigitChars_ten_toDigits (n := m), hmn, Nat.ofDigitChars_ten_toDigits]
  have hlist : Nat.toDigits 10 r ++ '-' :: Nat.toDigits 10 c =
      Nat.toDigits 10 r' ++ '-' :: Nat.toDigits 10 c' := by
    have := congrArg String.toList h
    simpa [String.toList_append, ← Nat.toList_repr] using this
  have hrow := congrArg (List.takeWhile (· != '-')) hlist
  rw [List.takeWhile_append_of_pos (hdigits r), List.takeWhile_append_of_pos (hdigits r')] at hrow
  simp only [List.takeWhile_cons, bne_self_eq_false, Bool.false_eq_true, if_false,
    List.append_nil] at hrow
  rw [hrow] at hlist
  have hcol := List.append_cancel_left hlist
  exact ⟨hinj hrow, hinj (List.cons_inj_right _ |>.mp hcol)⟩

theorem nodup_allShardIds (grid : GridConfig) : (allShardIds grid).Nodup := by
  unfold allShardIds
  rw [List.nodup_flatMap]
  constructor
  · intro row _
    exact List.nodup_range.map fun c c' h => (shardId_inj h).2
  · refine List.nodup_range.imp fun {r r'} hne => ?_
    intro s hs hs'
    obtain ⟨c, -, rfl⟩ := List.mem_map.mp hs
    obtain ⟨c', -, h⟩ := List.mem_map.mp hs'
    exact hne (shardId_inj h).1.symm

structure AgentState where
  id : String
  x : ℚ
  y : ℚ
  vx : ℚ
  vy : ℚ
  deriving DecidableEq, Repr

/-- `_bounce(pos, vel, limit)` -/
def bounce (pos vel limit : ℚ) : ℚ × ℚ :=
  if pos < 0 then (-pos, -vel)
  else if pos > limit then (2 * limit - pos, -vel)
  else (pos, vel)

namespace AgentState

def step (a : AgentState) (dt : ℚ) (grid : GridConfig) : AgentState :=
  let (x, vx) := bounce (a.x + a.vx * dt) a.vx grid.width
  let (y, vy) := bounce (a.y + a.vy * dt) a.vy grid.height
  ⟨a.id, x, y, vx, vy⟩

@[simp] theorem step_id (a : AgentState) (dt : ℚ) (grid : GridConfig) :
    (a.step dt grid).id = a.id :=
  rfl

def shardId (a : AgentState) (grid : GridConfig) : String := shardIdFor a.x a.y grid

end AgentState

/-! ### Registries -/

/-- A dict from agent ids to agents, as its values in insertion order. -/
@[ext] structure Registry where
  agents : List AgentState
  nodup : (agents.map AgentState.id).Nodup
  deriving DecidableEq

namespace Registry

def empty : Registry := ⟨[], List.nodup_nil⟩

/-- `id in agents` -/
def Has (r : Registry) (id : String) : Prop := id ∈ r.agents.map AgentState.id

instance (r : Registry) (id : String) : Decidable (r.Has id) := by
  unfold Has
  infer_instance

theorem has_iff {r : Registry} {id : String} : r.Has id ↔ ∃ a ∈ r.agents, a.id = id := List.mem_map

theorem has_of_mem {r : Registry} {a : AgentState} (h : a ∈ r.agents) : r.Has a.id :=
  List.mem_map_of_mem h

@[simp] theorem not_has_empty (id : String) : ¬ empty.Has id := by simp [Has, empty]

/-- What an assignment `agents[a.id] = a` leaves of the values. -/
def assign (l : List AgentState) (a : AgentState) : List AgentState :=
  if a.id ∈ l.map AgentState.id then l.map fun b => if b.id = a.id then a else b else l ++ [a]

theorem assign_ids (l : List AgentState) (a : AgentState) : (assign l a).map AgentState.id =
    if a.id ∈ l.map AgentState.id then l.map AgentState.id else l.map AgentState.id ++ [a.id] := by
  unfold assign
  split
  · rw [List.map_map]
    refine List.map_congr_left fun b _ => ?_
    by_cases hb : b.id = a.id
    · simp [hb]
    · simp [hb]
  · simp

/-- `agents[a.id] = a` -/
def set (r : Registry) (a : AgentState) : Registry where
  agents := assign r.agents a
  nodup := by
    rw [assign_ids]
    split
    · exact r.nodup
    · rename_i h
      rw [← List.concat_eq_append, List.nodup_concat]
      exact ⟨h, r.nodup⟩

/-- `agents.pop(id, None)` -/
def pop (r : Registry) (id : String) : Registry where
  agents := r.agents.filter fun a => a.id ≠ id
  nodup := r.nodup.sublist (List.filter_sublist.map _)

theorem step_ids (l : List AgentState) (dt : ℚ) (grid : GridConfig) :
    (l.map fun a => a.step dt grid).map AgentState.id = l.map AgentState.id := by
  rw [List.map_map]
  exact List.map_congr_left fun a _ => a.step_id dt grid

/-- `for agent in agents.values(): agent.step(dt, grid)` -/
def step (r : Registry) (dt : ℚ) (grid : GridConfig) : Registry where
  agents := r.agents.map fun a => a.step dt grid
  nodup := by
    rw [step_ids]
    exact r.nodup

/-- `{a["id"]: AgentState(**a) for a in l}` -/
def ofList (l : List AgentState) : Registry := l.foldl set empty

@[simp] theorem has_set {r : Registry} {a : AgentState} {id : String} :
    (r.set a).Has id ↔ id = a.id ∨ r.Has id := by
  unfold Has set
  rw [assign_ids]
  split
  · rename_i h
    constructor
    · exact .inr
    · rintro (rfl | h')
      · exact h
      · exact h'
  · rw [List.mem_append, List.mem_singleton, or_comm]

theorem mem_set (r : Registry) (a : AgentState) : a ∈ (r.set a).agents := by
  unfold set assign
  split
  · rename_i h
    obtain ⟨b, hb, hid⟩ := List.mem_map.mp h
    exact List.mem_map.mpr ⟨b, hb, if_pos hid⟩
  · simp

@[simp] theorem has_pop {r : Registry} {id id' : String} :
    (r.pop id').Has id ↔ r.Has id ∧ id ≠ id' := by
  simp only [has_iff, pop, List.mem_filter, decide_eq_true_eq]
  constructor
  · rintro ⟨a, ⟨ha, hne⟩, rfl⟩
    exact ⟨⟨a, ha, rfl⟩, hne⟩
  · rintro ⟨⟨a, ha, rfl⟩, hne⟩
    exact ⟨a, ⟨ha, hne⟩, rfl⟩

theorem has_foldl_pop {ids : List String} {r : Registry} {id : String} :
    (ids.foldl pop r).Has id ↔ r.Has id ∧ id ∉ ids := by
  induction ids generalizing r with
  | nil => simp
  | cons i ids ih =>
    rw [List.foldl_cons, ih, has_pop, List.mem_cons, not_or, and_assoc]

@[simp] theorem has_step {r : Registry} {dt : ℚ} {grid : GridConfig} {id : String} :
    (r.step dt grid).Has id ↔ r.Has id := by
  unfold Has step
  rw [step_ids]

theorem ofList_append (l : List AgentState) (a : AgentState) :
    ofList (l ++ [a]) = (ofList l).set a := by
  simp [ofList]

/-- Reading back the values of a registry gives the registry. -/
@[simp] theorem ofList_agents (r : Registry) : ofList r.agents = r := by
  have key : ∀ l : List AgentState, (l.map AgentState.id).Nodup → (ofList l).agents = l := by
    intro l
    induction l using List.reverseRecOn with
    | nil => exact fun _ => rfl
    | append_singleton l a ih =>
      intro h
      rw [List.map_append, List.map_singleton, ← List.concat_eq_append, List.nodup_concat] at h
      rw [ofList_append]
      show assign (ofList l).agents a = l ++ [a]
      rw [ih h.2, assign, if_neg h.1]
  exact Registry.ext (key _ r.nodup)

theorem has_ofList {l : List AgentState} {id : String} :
    (ofList l).Has id ↔ id ∈ l.map AgentState.id := by
  induction l using List.reverseRecOn with
  | nil => simp [ofList]
  | append_singleton l a ih =>
    rw [ofList_append, has_set, ih, List.map_append, List.map_singleton, List.mem_append,
      List.mem_singleton, or_comm]

end Registry

end Region
