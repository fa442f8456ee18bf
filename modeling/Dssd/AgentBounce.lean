/-
Where a moving agent can be (`sharding/world.py`).

`_bounce` reflects at most once a step.  Away from that, bouncing is exact: the
agent is always an image of the one that flies straight on, so it is where the
mirrors fold that one as long as it stays inside the world.  It does so as long as
a step is no longer than the world; a longer step crosses a wall every time and
gains on the wall behind, until one reflection no longer brings it back.

* `Region.glide` — one coordinate of `AgentState.step`;
* `Region.glide_tracks` — it keeps being an image of the straight flight;
* `Region.glide_mem`, `Region.glide_leaves` — steps that stay inside, and steps
  that at last do not;
* **`Region.bounce_exact`** — the agent stays in the folded flight at every step
  exactly if a step reaches no further than the world does.
-/
import Mathlib.Algebra.Order.Archimedean.Basic
import Dssd.AgentWorld
import Dssd.MirrorFold

namespace Region

open Mirror

/-! ### One coordinate -/

/-- One coordinate of `AgentState.step`: position and velocity. -/
def glide (limit dt : ℚ) (p : ℚ × ℚ) : ℚ × ℚ := bounce (p.1 + p.2 * dt) p.2 limit

variable {limit dt : ℚ}

theorem bounce_tracks {z v pos vel : ℚ} (h : Tracks limit z v pos vel) :
    Tracks limit z v (bounce pos vel limit).1 (bounce pos vel limit).2 := by
  unfold bounce
  split
  · have := h.reflect 0
    simpa using this
  · split
    · have := h.reflect 1
      simpa using this
    · exact h

/-- The agent is an image of the one that flies straight on. -/
theorem glide_tracks (limit dt x v : ℚ) (n : ℕ) :
    Tracks limit (x + n * v * dt) v ((glide limit dt)^[n] (x, v)).1
      ((glide limit dt)^[n] (x, v)).2 := by
  induction n with
  | zero =>
    have := Tracks.refl limit x v
    simpa using this
  | succ n ih =>
    rw [Function.iterate_succ_apply']
    have hz : x + (n + 1 : ℕ) * v * dt = x + n * v * dt + v * dt := by
      push_cast
      ring
    rw [hz]
    exact bounce_tracks (ih.move dt)

theorem glide_abs (limit dt x v : ℚ) (n : ℕ) : |((glide limit dt)^[n] (x, v)).2| = |v| :=
  (glide_tracks limit dt x v n).abs_eq

/-- One reflection brings back what left the world by at most its size. -/
theorem bounce_mem {pos vel : ℚ} (h0 : -limit ≤ pos) (h1 : pos ≤ 2 * limit) :
    0 ≤ (bounce pos vel limit).1 ∧ (bounce pos vel limit).1 ≤ limit := by
  unfold bounce
  split
  · constructor <;> dsimp only <;> linarith
  · rename_i hpos
    split
    · constructor <;> dsimp only <;> linarith
    · rename_i hlimit
      exact ⟨not_lt.mp hpos, not_lt.mp hlimit⟩

/-- Steps no longer than the world stay inside. -/
theorem glide_mem {x v : ℚ} (hx0 : 0 ≤ x) (hx1 : x ≤ limit) (hdt : 0 ≤ dt) (hv : |v| * dt ≤ limit)
    (n : ℕ) : 0 ≤ ((glide limit dt)^[n] (x, v)).1 ∧ ((glide limit dt)^[n] (x, v)).1 ≤ limit := by
  induction n with
  | zero => exact ⟨hx0, hx1⟩
  | succ n ih =>
    rw [Function.iterate_succ_apply']
    set p := (glide limit dt)^[n] (x, v) with hp
    have habs : |p.2 * dt| ≤ limit := by
      rw [abs_mul, abs_of_nonneg hdt, hp, glide_abs]
      exact hv
    obtain ⟨hlow, hhigh⟩ := abs_le.mp habs
    exact bounce_mem (by linarith) (by linarith)

/-- How far the point is from the wall behind it. -/
def behind (limit : ℚ) (p : ℚ × ℚ) : ℚ := if 0 < p.2 then p.1 else limit - p.1

/-- A step longer than the world crosses the wall ahead and gains on the one behind. -/
theorem behind_glide {p : ℚ × ℚ} (h0 : 0 ≤ p.1) (h1 : p.1 ≤ limit) (hv : limit < |p.2| * dt) :
    behind limit (glide limit dt p) = behind limit p + (|p.2| * dt - limit) := by
  by_cases hpos : 0 < p.2
  · -- the wall ahead is at `limit`
    rw [abs_of_pos hpos] at hv ⊢
    have hne : ¬ p.1 + p.2 * dt < 0 := by linarith
    have hgt : p.1 + p.2 * dt > limit := by linarith
    have hneg : ¬ 0 < -p.2 := by linarith
    unfold glide bounce behind
    rw [if_neg hne, if_pos hgt, if_neg hneg, if_pos hpos]
    ring
  · -- the wall ahead is at `0`
    have hle : p.2 ≤ 0 := not_lt.mp hpos
    rw [abs_of_nonpos hle] at hv ⊢
    have hlt : p.1 + p.2 * dt < 0 := by linarith
    have hne : p.2 ≠ 0 := by
      intro hzero
      rw [hzero] at hv
      linarith
    have hneg : 0 < -p.2 := by
      have := lt_of_le_of_ne hle hne
      linarith
    unfold glide bounce behind
    rw [if_pos hlt, if_pos hneg, if_neg hpos]
    ring

/-- Steps longer than the world do not stay inside for ever. -/
theorem glide_leaves {x v : ℚ} (hv : limit < |v| * dt) :
    ∃ n, ¬ (0 ≤ ((glide limit dt)^[n] (x, v)).1 ∧ ((glide limit dt)^[n] (x, v)).1 ≤ limit) := by
  by_contra hall
  push Not at hall
  -- the distance from the wall behind grows by the same amount at each step
  have hgain : ∀ n : ℕ, behind limit ((glide limit dt)^[n] (x, v)) =
      behind limit (x, v) + n * (|v| * dt - limit) := by
    intro n
    induction n with
    | zero => simp
    | succ n ih =>
      obtain ⟨h0, h1⟩ := hall n
      rw [Function.iterate_succ_apply', behind_glide h0 h1 (by rw [glide_abs]; exact hv), ih,
        glide_abs]
      push_cast
      ring
  -- but it stays between nothing and the size of the world
  have hbound : ∀ n : ℕ, 0 ≤ behind limit ((glide limit dt)^[n] (x, v)) ∧
      behind limit ((glide limit dt)^[n] (x, v)) ≤ limit := by
    intro n
    obtain ⟨h0, h1⟩ := hall n
    unfold behind
    split
    · exact ⟨h0, h1⟩
    · constructor <;> linarith
  obtain ⟨n, hn⟩ := exists_nat_gt (limit / (|v| * dt - limit))
  rw [div_lt_iff₀ (sub_pos.mpr hv)] at hn
  have h0 := (hbound 0).1
  have hn' := (hbound n).2
  rw [hgain] at hn'
  simp only [Function.iterate_zero, id_eq] at h0
  linarith

/-! ### Agents -/

namespace AgentState

/-- The position is in the world `[0, width] × [0, height]`. -/
def Inside (a : AgentState) (grid : GridConfig) : Prop :=
  (0 ≤ a.x ∧ a.x ≤ grid.width) ∧ (0 ≤ a.y ∧ a.y ≤ grid.height)

instance (a : AgentState) (grid : GridConfig) : Decidable (a.Inside grid) :=
  inferInstanceAs (Decidable (_ ∧ _))

/-- `n` calls of `step` -/
def stepN (a : AgentState) (dt : ℚ) (grid : GridConfig) (n : ℕ) : AgentState :=
  (fun a => a.step dt grid)^[n] a

theorem stepN_x (a : AgentState) (dt : ℚ) (grid : GridConfig) (n : ℕ) :
    ((a.stepN dt grid n).x, (a.stepN dt grid n).vx) = (glide grid.width dt)^[n] (a.x, a.vx) := by
  induction n with
  | zero => rfl
  | succ n ih =>
    unfold stepN at ih ⊢
    rw [Function.iterate_succ_apply', Function.iterate_succ_apply', ← ih]
    rfl

theorem stepN_y (a : AgentState) (dt : ℚ) (grid : GridConfig) (n : ℕ) :
    ((a.stepN dt grid n).y, (a.stepN dt grid n).vy) = (glide grid.height dt)^[n] (a.y, a.vy) := by
  induction n with
  | zero => rfl
  | succ n ih =>
    unfold stepN at ih ⊢
    rw [Function.iterate_succ_apply', Function.iterate_succ_apply', ← ih]
    rfl

/-- The agent `b` is in the world, as fast as `a`, and where the mirrors at the edges fold the
straight flight of `a` for `n` steps. -/
def Folded (a b : AgentState) (dt : ℚ) (grid : GridConfig) (n : ℕ) : Prop :=
  b.Inside grid ∧ (|b.vx| = |a.vx| ∧ |b.vy| = |a.vy|) ∧
    (b.x = fold grid.width (a.x + n * a.vx * dt) ∧ b.y = fold grid.height (a.y + n * a.vy * dt))

instance (a b : AgentState) (dt : ℚ) (grid : GridConfig) (n : ℕ) :
    Decidable (a.Folded b dt grid n) :=
  inferInstanceAs (Decidable (_ ∧ _ ∧ _))

/-- Speed and fold come with staying inside. -/
theorem folded_iff_inside {a : AgentState} {dt : ℚ} {grid : GridConfig} (hw : 0 < grid.width)
    (hh : 0 < grid.height) (n : ℕ) :
    a.Folded (a.stepN dt grid n) dt grid n ↔ (a.stepN dt grid n).Inside grid := by
  refine ⟨fun h => h.1, fun hin => ?_⟩
  have hx := glide_tracks grid.width dt a.x a.vx n
  have hy := glide_tracks grid.height dt a.y a.vy n
  rw [← stepN_x] at hx
  rw [← stepN_y] at hy
  exact ⟨hin, ⟨hx.abs_eq, hy.abs_eq⟩, (hx.fold_eq hw hin.1.1 hin.1.2).symm,
    (hy.fold_eq hh hin.2.1 hin.2.2).symm⟩

end AgentState

/-- **Agents stay in the world exactly if a step reaches no further than the world does**: for a
start inside, the agent is inside, as fast as before and where the mirrors fold its straight flight
after every number of steps, just when neither coordinate moves more than the limit in one step. -/
theorem bounce_exact {grid : GridConfig} (hw : 0 < grid.width) (hh : 0 < grid.height)
    {a : AgentState} (hin : a.Inside grid) {dt : ℚ} (hdt : 0 ≤ dt) :
    (∀ n, a.Folded (a.stepN dt grid n) dt grid n) ↔
      |a.vx| * dt ≤ grid.width ∧ |a.vy| * dt ≤ grid.height := by
  constructor
  · intro h
    constructor
    · by_contra hfar
      obtain ⟨n, hn⟩ := glide_leaves (x := a.x) (not_le.mp hfar)
      rw [← AgentState.stepN_x] at hn
      exact hn (h n).1.1
    · by_contra hfar
      obtain ⟨n, hn⟩ := glide_leaves (x := a.y) (not_le.mp hfar)
      rw [← AgentState.stepN_y] at hn
      exact hn (h n).1.2
  · rintro ⟨hx, hy⟩ n
    have hx := glide_mem hin.1.1 hin.1.2 hdt hx n
    have hy := glide_mem hin.2.1 hin.2.2 hdt hy n
    rw [← AgentState.stepN_x] at hx
    rw [← AgentState.stepN_y] at hy
    exact (AgentState.folded_iff_inside hw hh n).mpr ⟨hx, hy⟩

/-- An agent that crosses the world half way at each step stays in it. -/
theorem bounce_exact_agent : (∀ n, (AgentState.mk "a" 3 4 10 (-5)).Folded
    ((AgentState.mk "a" 3 4 10 (-5)).stepN 1 ⟨20, 10, 2, 2⟩ n) 1 ⟨20, 10, 2, 2⟩ n) ↔
      |(10 : ℚ)| * 1 ≤ 20 ∧ |(-5 : ℚ)| * 1 ≤ 10 :=
  bounce_exact (by norm_num) (by norm_num) (by decide) (by norm_num)

/-- A step of five times the world's width ends outside after one reflection. -/
theorem bounce_exact_far : ¬ ∀ (grid : GridConfig) (a : AgentState) (dt : ℚ), 0 < grid.width →
    0 < grid.height → a.Inside grid → 0 ≤ dt → ∀ n, a.Folded (a.stepN dt grid n) dt grid n := by
  intro h
  have hout := (h ⟨20, 10, 2, 2⟩ ⟨"a", 0, 4, 100, 0⟩ 1 (by norm_num) (by norm_num) (by decide)
    (by norm_num) 1).1.1.1
  have hx : ((AgentState.mk "a" 0 4 100 0).stepN 1 ⟨20, 10, 2, 2⟩ 1).x = -60 := by
    norm_num [AgentState.stepN, AgentState.step, bounce]
  rw [hx] at hout
  norm_num at hout

end Region
