/-
Folding a line into an interval by mirrors at its two ends.

Two mirrors at `0` and `L` fold the whole line onto `[0, L]`; the fold repeats
with period `2 * L`.

* `Mirror.fold` — the fold of a point;
* `Mirror.Tracks` — a moving point that is another one, or its mirror image, some
  periods away; kept by moving on (`Tracks.move`) and by every reflection
  (`Tracks.reflect`);
* `Mirror.Tracks.fold_eq` — between the mirrors such a point is the fold of the other.
-/
import Mathlib.Algebra.Order.Floor.Ring
import Mathlib.Tactic.Linarith
import Mathlib.Tactic.Ring
import Mathlib.Tactic.FieldSimp

namespace Mirror

section Fold

variable {K : Type*} [Field K] [LinearOrder K] [IsStrictOrderedRing K] [FloorRing K]

/-- The fold of `z` into `[0, L]`: the rest of `z` modulo `2 * L`, read backwards beyond `L`. -/
def fold (L z : K) : K :=
  let rest := z - 2 * L * ⌊z / (2 * L)⌋
  if rest ≤ L then rest else 2 * L - rest

variable {L z : K}

/-- A whole number of periods does not change the fold. -/
theorem fold_add_period (hL : 0 < L) (z : K) (k : ℤ) : fold L (z + 2 * L * k) = fold L z := by
  have hperiod : (z + 2 * L * k) / (2 * L) = z / (2 * L) + k := by
    field_simp
  have hrest : z + 2 * L * k - 2 * L * ⌊(z + 2 * L * k) / (2 * L)⌋ =
      z - 2 * L * ⌊z / (2 * L)⌋ := by
    rw [hperiod, Int.floor_add_intCast]
    push_cast
    ring
  unfold fold
  rw [hrest]

/-- Between the mirrors the fold changes nothing. -/
theorem fold_of_mem (h0 : 0 ≤ z) (h1 : z ≤ L) (hL : 0 < L) : fold L z = z := by
  have hfloor : ⌊z / (2 * L)⌋ = 0 := by
    rw [Int.floor_eq_zero_iff]
    refine ⟨by positivity, ?_⟩
    rw [div_lt_one (by linarith)]
    linarith
  unfold fold
  rw [hfloor]
  simp [h1]

/-- Just before the first mirror the fold is the mirror image. -/
theorem fold_neg_of_mem (h0 : 0 ≤ z) (h1 : z ≤ L) (hL : 0 < L) : fold L (-z) = z := by
  rcases h0.eq_or_lt with rfl | hpos
  · rw [neg_zero]
    exact fold_of_mem le_rfl hL.le hL
  · have hfloor : ⌊-z / (2 * L)⌋ = -1 := by
      rw [Int.floor_eq_iff]
      push_cast
      constructor
      · rw [le_div_iff₀ (by linarith)]
        linarith
      · rw [div_lt_iff₀ (by linarith)]
        linarith
    unfold fold
    rw [hfloor]
    push_cast
    split <;> linarith

end Fold

/-! ### Tracks -/

section Tracks

variable {K : Type*} [Field K]

/-- A point `x` moving with `w` is an image of the point `z` moving with `v`: the same motion or
its mirror image, some periods away. -/
def Tracks (L z v x w : K) : Prop :=
  ∃ k : ℤ, (x = z + 2 * L * k ∧ w = v) ∨ (x = -z + 2 * L * k ∧ w = -v)

variable {L z v x w : K}

namespace Tracks

theorem refl (L z v : K) : Tracks L z v z v := ⟨0, .inl ⟨by simp, rfl⟩⟩

/-- Both points move on for the same time. -/
theorem move (h : Tracks L z v x w) (dt : K) : Tracks L (z + v * dt) v (x + w * dt) w := by
  obtain ⟨k, ⟨rfl, rfl⟩ | ⟨rfl, rfl⟩⟩ := h
  · exact ⟨k, .inl ⟨by ring, rfl⟩⟩
  · exact ⟨k, .inr ⟨by ring, rfl⟩⟩

/-- A reflection at the mirror at `k * L`. -/
theorem reflect (h : Tracks L z v x w) (j : ℤ) : Tracks L z v (2 * L * j - x) (-w) := by
  obtain ⟨k, ⟨rfl, rfl⟩ | ⟨rfl, rfl⟩⟩ := h
  · exact ⟨j - k, .inr ⟨by push_cast; ring, rfl⟩⟩
  · exact ⟨j - k, .inl ⟨by push_cast; ring, neg_neg v⟩⟩

/-- **The fold of a point is its image between the mirrors.** -/
theorem fold_eq [LinearOrder K] [IsStrictOrderedRing K] [FloorRing K] (h : Tracks L z v x w)
    (hL : 0 < L) (h0 : 0 ≤ x) (h1 : x ≤ L) : fold L z = x := by
  obtain ⟨k, ⟨rfl, -⟩ | ⟨rfl, -⟩⟩ := h
  · rw [← fold_add_period hL z k]
    exact fold_of_mem h0 h1 hL
  · have hz : z = -(-z + 2 * L * k) + 2 * L * k := by ring
    conv_lhs => rw [hz]
    rw [fold_add_period hL]
    exact fold_neg_of_mem h0 h1 hL

theorem abs_eq [LinearOrder K] (h : Tracks L z v x w) : |w| = |v| := by
  obtain ⟨k, ⟨-, rfl⟩ | ⟨-, rfl⟩⟩ := h
  · rfl
  · exact abs_neg v

end Tracks

end Tracks

end Mirror
