/-
The grid of shards partitions the world (`shard_id_for`, `all_shard_ids`).

* `cellOf_eq` — column and row of a point, clamped to the grid;
* `shardIdFor_eq` — the shard of a point is named after its row and column;
* `shards` — the dict that a region server gets, a shard for each id;
* **`grid_partition`** — there are as many ids as cells, every point has exactly one of
  them, and every one of them is that of a point inside the world.
-/
import Dssd.AgentWorld
import Dssd.Dict
import Mathlib.Tactic.FieldSimp
import Mathlib.Tactic.Positivity

namespace Region

/-! ### Cells -/

/-- A point outside the world is in the first or in the last cell. -/
theorem cellOf_eq (v size : ℚ) {n : ℕ} (hn : 1 ≤ n) : ∃ k : ℕ, k < n ∧ cellOf v size n = k := by
  refine ⟨(cellOf v size n).toNat, ?_, ?_⟩
  · unfold cellOf
    omega
  · unfold cellOf
    omega

/-- Where a cell starts. -/
theorem cellOf_start {size : ℚ} (hsize : 0 < size) {n k : ℕ} (hk : k < n) :
    cellOf (k * (size / n)) size n = k := by
  have hcell : 0 < size / n := div_pos hsize (Nat.cast_pos.mpr (by omega))
  rw [cellOf, mul_div_cancel_right₀ _ hcell.ne', Int.floor_natCast]
  omega

theorem start_mem {size : ℚ} (hsize : 0 < size) {n k : ℕ} (hk : k < n) :
    (k * (size / n) : ℚ) ∈ Set.Icc 0 size := by
  have hn : (0 : ℚ) < n := Nat.cast_pos.mpr (by omega)
  have hle : (k : ℚ) ≤ n := Nat.cast_le.mpr hk.le
  constructor
  · positivity
  · calc (k * (size / n) : ℚ) ≤ n * (size / n) := by gcongr
      _ = size := by field_simp

/-! ### Shard ids -/

variable {grid : GridConfig}

theorem length_allShardIds (grid : GridConfig) :
    (allShardIds grid).length = grid.rows * grid.cols := by
  simp [allShardIds, List.length_flatMap]

theorem mem_allShardIds {s : String} : s ∈ allShardIds grid ↔
    ∃ row < grid.rows, ∃ col < grid.cols, s = toString row ++ "-" ++ toString col := by
  simp [allShardIds, eq_comm]

/-- The shard of a point is named after its row and column. -/
theorem shardIdFor_eq {x y : ℚ} {row col : ℕ} (hrow : cellOf y grid.height grid.rows = row)
    (hcol : cellOf x grid.width grid.cols = col) :
    shardIdFor x y grid = toString row ++ "-" ++ toString col := by
  rw [shardIdFor, hrow, hcol]
  rfl

theorem shardIdFor_mem (hcols : 1 ≤ grid.cols) (hrows : 1 ≤ grid.rows) (x y : ℚ) :
    shardIdFor x y grid ∈ allShardIds grid := by
  obtain ⟨row, hrow, hy⟩ := cellOf_eq y grid.height hrows
  obtain ⟨col, hcol, hx⟩ := cellOf_eq x grid.width hcols
  exact mem_allShardIds.mpr ⟨row, hrow, col, hcol, shardIdFor_eq hy hx⟩

/-- Points are in one shard only if they are in one cell. -/
theorem shardIdFor_eq_iff (hcols : 1 ≤ grid.cols) (hrows : 1 ≤ grid.rows) {x y x' y' : ℚ} :
    shardIdFor x y grid = shardIdFor x' y' grid ↔
      cellOf y grid.height grid.rows = cellOf y' grid.height grid.rows ∧
        cellOf x grid.width grid.cols = cellOf x' grid.width grid.cols := by
  obtain ⟨row, -, hy⟩ := cellOf_eq y grid.height hrows
  obtain ⟨col, -, hx⟩ := cellOf_eq x grid.width hcols
  obtain ⟨row', -, hy'⟩ := cellOf_eq y' grid.height hrows
  obtain ⟨col', -, hx'⟩ := cellOf_eq x' grid.width hcols
  constructor
  · intro h
    rw [shardIdFor_eq hy hx, shardIdFor_eq hy' hx'] at h
    obtain ⟨rfl, rfl⟩ := shardId_inj h
    exact ⟨hy.trans hy'.symm, hx.trans hx'.symm⟩
  · rintro ⟨hrow, hcol⟩
    rw [shardIdFor, shardIdFor, hrow, hcol]

/-- A shard has the point in it where its cell starts. -/
theorem exists_point (hw : 0 < grid.width) (hh : 0 < grid.height) {s : String}
    (hs : s ∈ allShardIds grid) : ∃ x ∈ Set.Icc 0 grid.width, ∃ y ∈ Set.Icc 0 grid.height,
      shardIdFor x y grid = s := by
  obtain ⟨row, hrow, col, hcol, rfl⟩ := mem_allShardIds.mp hs
  exact ⟨_, start_mem hw hcol, _, start_mem hh hrow,
    shardIdFor_eq (cellOf_start hh hrow) (cellOf_start hw hcol)⟩

/-! ### The shards of a region server -/

/-- The `shards` of a `RegionServer`: a shard for each id. -/
def shards {α : Type*} (grid : GridConfig) (shard : String → α) : Dict α :=
  Dict.ofKeys shard (allShardIds grid)

/-- `self.shards[agent.shard_id(self.grid)]` -/
theorem get?_shards {α : Type*} (hcols : 1 ≤ grid.cols) (hrows : 1 ≤ grid.rows)
    (shard : String → α) (a : AgentState) :
    (shards grid shard).get? (a.shardId grid) = some (shard (a.shardId grid)) := by
  rw [shards, Dict.get?_ofKeys, if_pos]
  exact shardIdFor_mem hcols hrows a.x a.y

/-- **The grid is a partition.**  There are `rows * cols` shard ids, all different; every point, in
the world or not, has one of them, so a region server finds the shard of every agent; two points
have the same one exactly if their clamped rows and columns are the same; and every one of them is
the shard of a point of the world. -/
theorem grid_partition {grid : GridConfig} (hw : 0 < grid.width) (hh : 0 < grid.height)
    (hcols : 1 ≤ grid.cols) (hrows : 1 ≤ grid.rows) :
    ((allShardIds grid).length = grid.rows * grid.cols ∧ (allShardIds grid).Nodup) ∧
    (∀ x y, shardIdFor x y grid ∈ allShardIds grid) ∧
    (∀ (α : Type) (shard : String → α) (a : AgentState),
      (shards grid shard).get? (a.shardId grid) = some (shard (a.shardId grid))) ∧
    (∀ x y x' y', shardIdFor x y grid = shardIdFor x' y' grid ↔
      cellOf y grid.height grid.rows = cellOf y' grid.height grid.rows ∧
        cellOf x grid.width grid.cols = cellOf x' grid.width grid.cols) ∧
    ∀ s ∈ allShardIds grid, ∃ x ∈ Set.Icc 0 grid.width, ∃ y ∈ Set.Icc 0 grid.height,
      shardIdFor x y grid = s :=
  ⟨⟨length_allShardIds grid, nodup_allShardIds grid⟩, shardIdFor_mem hcols hrows,
    fun _ => get?_shards hcols hrows, fun _ _ _ _ => shardIdFor_eq_iff hcols hrows,
    fun _ => exists_point hw hh⟩

/-- A grid of two rows and three columns, and a point outside of it. -/
theorem grid_partition_six : (allShardIds ⟨100, 50, 3, 2⟩).length = 6 ∧
    shardIdFor (-5) 150 ⟨100, 50, 3, 2⟩ ∈ allShardIds ⟨100, 50, 3, 2⟩ :=
  have h := @grid_partition ⟨100, 50, 3, 2⟩ (by norm_num) (by norm_num) (by decide) (by decide)
  ⟨h.1.1, h.2.1 _ _⟩

end Region
