/-
Serving a queue least-served first.

Each entry of a queue is to be served `T` times.  A round serves the at most `U`
entries that were served least, and drops those that have been served `T` times.

* `Quota.due`, `Quota.round` — whom a round serves, and the queue after it;
* `Quota.left_round` — a round takes one off what is left to do of each served entry;
* `Quota.fits_round` — `N + 1` rounds are enough for a queue exactly if `N` are for the
  queue after a round;
* **`Quota.drained_iff`** — the queue is empty after exactly as many rounds as the
  larger of the most that is left of one entry and the share of a round in all;
* **`Quota.count_of_drained`** — by then each entry has been served what was left of it.
-/
import Mathlib.Algebra.Order.Floor.Div
import Mathlib.Data.List.Sort
import Mathlib.Algebra.BigOperators.Group.List.Basic

namespace Quota

variable {κ : Type*} {T U : ℕ} {l : List (κ × ℕ)}

/-- The least served entries first, the earlier ones first among equals. -/
def byServed (l : List (κ × ℕ)) : List (κ × ℕ) := l.insertionSort fun a b => a.2 ≤ b.2

/-- The entries that a round serves. -/
def due (U : ℕ) (l : List (κ × ℕ)) : List (κ × ℕ) := (byServed l).take U

/-- What stays of an entry that is served. -/
def served (T : ℕ) (e : κ × ℕ) : Option (κ × ℕ) := if T ≤ e.2 + 1 then none else some (e.1, e.2 + 1)

/-- A queue of different entries, each still to be served. -/
structure Valid (T : ℕ) (l : List (κ × ℕ)) : Prop where
  nodup : (l.map Prod.fst).Nodup
  lt : ∀ e ∈ l, e.2 < T

/-! ### The least served entries -/

theorem byServed_perm (l : List (κ × ℕ)) : (byServed l).Perm l := List.perm_insertionSort _ _

theorem due_append_drop (U : ℕ) (l : List (κ × ℕ)) :
    (due U l ++ (byServed l).drop U).Perm l := by
  rw [due, List.take_append_drop]
  exact byServed_perm l

theorem mem_of_mem_due {e : κ × ℕ} (h : e ∈ due U l) : e ∈ l :=
  (byServed_perm l).mem_iff.mp (List.mem_of_mem_take h)

theorem length_due (U : ℕ) (l : List (κ × ℕ)) : (due U l).length = min U l.length := by
  rw [due, List.length_take, (byServed_perm l).length_eq]

theorem nodup_due {β : Type*} {f : κ × ℕ → β} (h : (l.map f).Nodup) : ((due U l).map f).Nodup :=
  (((byServed_perm l).map f).nodup_iff.mpr h).sublist ((List.take_sublist _ _).map f)

/-- Who is served was not served more than who is not. -/
theorem due_le {d e : κ × ℕ} (hd : d ∈ due U l) (he : e ∈ (byServed l).drop U) : d.2 ≤ e.2 := by
  have htotal : Std.Total fun a b : κ × ℕ => a.2 ≤ b.2 := ⟨fun a b => Nat.le_total a.2 b.2⟩
  have htrans : IsTrans (κ × ℕ) fun a b => a.2 ≤ b.2 := ⟨fun _ _ _ => Nat.le_trans⟩
  have hsorted := List.pairwise_insertionSort (fun a b : κ × ℕ => a.2 ≤ b.2) l
  rw [← List.take_append_drop U (l.insertionSort _), List.pairwise_append] at hsorted
  exact hsorted.2.2 d hd e he

theorem served_eq {e e' : κ × ℕ} (h : served T e = some e') :
    e'.1 = e.1 ∧ e'.2 = e.2 + 1 ∧ e.2 + 1 < T := by
  obtain ⟨hlt, h⟩ := Option.ite_none_left_eq_some.mp h
  obtain rfl := Option.some.inj h
  exact ⟨rfl, rfl, not_le.mp hlt⟩

/-! ### What is left to do -/

/-- How often the entries of which `p` holds are still to be served. -/
def left (T : ℕ) (p : κ → Bool) (l : List (κ × ℕ)) : ℕ :=
  (l.map fun e => if p e.1 then T - e.2 else 0).sum

theorem left_perm {p : κ → Bool} {l' : List (κ × ℕ)} (h : l.Perm l') : left T p l = left T p l' :=
  (h.map _).sum_eq

theorem left_append (p : κ → Bool) (l l' : List (κ × ℕ)) :
    left T p (l ++ l') = left T p l + left T p l' := by
  rw [left, List.map_append, List.sum_append]
  rfl

theorem left_cons (p : κ → Bool) (e : κ × ℕ) (l : List (κ × ℕ)) :
    left T p (e :: l) = (if p e.1 then T - e.2 else 0) + left T p l := rfl

theorem left_served (p : κ → Bool) {d : List (κ × ℕ)} (h : ∀ e ∈ d, e.2 < T) :
    left T p (d.filterMap (served T)) + d.countP (fun e => p e.1) = left T p d := by
  induction d with
  | nil => rfl
  | cons e d ih =>
    have he := h e List.mem_cons_self
    have hd := ih fun e he => h e (List.mem_cons_of_mem _ he)
    rw [List.filterMap_cons, List.countP_cons, left_cons]
    cases hs : served T e with
    | none =>
      -- the last time for this entry
      have hlast : T ≤ e.2 + 1 := by
        by_contra hlt
        rw [served, if_neg hlt] at hs
        cases hs
      dsimp only
      split <;> omega
    | some e' =>
      obtain ⟨hkey, heq, hlt⟩ := served_eq hs
      dsimp only
      rw [left_cons, hkey, heq]
      split <;> omega

theorem left_le {N : ℕ} (h : ∀ e ∈ l, T - e.2 ≤ N) : left T (fun _ => true) l ≤ l.length * N := by
  induction l with
  | nil => simp [left]
  | cons e l ih =>
    have he := h e List.mem_cons_self
    have hl := ih fun e he => h e (List.mem_cons_of_mem _ he)
    rw [left_cons, if_pos rfl, List.length_cons, Nat.succ_mul]
    omega

theorem le_left {N : ℕ} (h : ∀ e ∈ l, N ≤ T - e.2) : l.length * N ≤ left T (fun _ => true) l := by
  induction l with
  | nil => simp [left]
  | cons e l ih =>
    have he := h e List.mem_cons_self
    have hl := ih fun e he => h e (List.mem_cons_of_mem _ he)
    rw [left_cons, if_pos rfl, List.length_cons, Nat.succ_mul]
    omega

/-- `N` rounds are enough, counted by entry and counted in all. -/
def Fits (T U N : ℕ) (l : List (κ × ℕ)) : Prop :=
  (∀ e ∈ l, T - e.2 ≤ N) ∧ left T (fun _ => true) l ≤ U * N

/-- No rounds are enough only for the empty queue. -/
theorem fits_zero_iff (h : Valid T l) : Fits T U 0 l ↔ l = [] := by
  constructor
  · rintro ⟨hmost, -⟩
    cases l with
    | nil => rfl
    | cons e l =>
      have := hmost e List.mem_cons_self
      have := h.lt e List.mem_cons_self
      omega
  · rintro rfl
    refine ⟨fun e he => ?_, Nat.zero_le _⟩
    cases he

/-- How often each entry is still to be served. -/
def remaining (T : ℕ) (l : List (κ × ℕ)) : List ℕ := l.map fun e => T - e.2

theorem most_le_iff {N : ℕ} : (remaining T l).foldr max 0 ≤ N ↔ ∀ e ∈ l, T - e.2 ≤ N := by
  induction l with
  | nil => simp [remaining]
  | cons e l ih =>
    show max (T - e.2) ((remaining T l).foldr max 0) ≤ N ↔ _
    rw [Nat.max_le, ih, List.forall_mem_cons]

theorem sum_remaining (l : List (κ × ℕ)) : (remaining T l).sum = left T (fun _ => true) l := by
  simp [remaining, left]

/-! ### One round -/

variable [DecidableEq κ]

/-- The queue after a round. -/
def round (T U : ℕ) (l : List (κ × ℕ)) : List (κ × ℕ) :=
  l.filterMap fun e => if e ∈ due U l then served T e else some e

/-- Up to order, a round serves the due entries and keeps the others. -/
theorem round_perm (h : (l.map Prod.fst).Nodup) :
    (round T U l).Perm ((due U l).filterMap (served T) ++ (byServed l).drop U) := by
  have hsort := (due_append_drop U l).symm.filterMap fun e =>
    if e ∈ due U l then served T e else some e
  rw [List.filterMap_append] at hsort
  have hnodup := (due_append_drop U l).nodup_iff.mpr h.of_map
  have hdue : (due U l).filterMap (fun e => if e ∈ due U l then served T e else some e) =
      (due U l).filterMap (served T) :=
    List.filterMap_congr fun e he => if_pos he
  have hrest : ((byServed l).drop U).filterMap
      (fun e => if e ∈ due U l then served T e else some e) = (byServed l).drop U := by
    rw [List.filterMap_congr (g := some), List.filterMap_some]
    intro e he
    exact if_neg fun hmem => (List.nodup_append.mp hnodup).2.2 e hmem e he rfl
  rw [hdue, hrest] at hsort
  exact hsort

/-- What an entry becomes keeps its key. -/
theorem round_key {e e' : κ × ℕ} (h : (if e ∈ due U l then served T e else some e) = some e') :
    e'.1 = e.1 := by
  split at h
  · exact (served_eq h).1
  · exact congrArg Prod.fst (Option.some.inj h).symm

theorem Valid.round (h : Valid T l) : Valid T (round T U l) where
  nodup := by
    -- the keys after a round are some of those before it
    have hkeys : ∀ l' : List (κ × ℕ), ((l'.filterMap fun e =>
        if e ∈ due U l then served T e else some e).map Prod.fst).Sublist (l'.map Prod.fst) := by
      intro l'
      induction l' with
      | nil => exact List.Sublist.slnil
      | cons e l' ih =>
        rw [List.filterMap_cons]
        split
        · exact ih.cons _
        · rename_i e' he'
          rw [List.map_cons, List.map_cons, round_key he']
          exact ih.cons_cons _
    exact h.nodup.sublist (hkeys l)
  lt := by
    intro e' he'
    obtain ⟨e, he, h'⟩ := List.mem_filterMap.mp he'
    split at h'
    · obtain ⟨-, heq, hlt⟩ := served_eq h'
      omega
    · exact Option.some.inj h' ▸ h.lt e he

/-- A round takes one off what is left of each entry that it serves. -/
theorem left_round (h : Valid T l) (p : κ → Bool) :
    left T p (round T U l) + (due U l).countP (fun e => p e.1) = left T p l := by
  have hdue := left_served p fun e he => h.lt e (mem_of_mem_due (U := U) he)
  rw [left_perm (round_perm h.nodup), left_append, ← left_perm (due_append_drop U l), left_append]
  omega

/-! ### How many rounds it takes -/

/-- One round is one of the rounds that are enough. -/
theorem fits_round (h : Valid T l) (N : ℕ) : Fits T U N (round T U l) ↔ Fits T U (N + 1) l := by
  have hleft := left_round (U := U) h fun _ => true
  have hcount : (due U l).countP (fun _ => true) = (due U l).length := by
    rw [List.countP_true]
  rw [hcount] at hleft
  have hlen := length_due U l
  have hround : ∀ e', e' ∈ round T U l ↔
      (∃ e ∈ due U l, served T e = some e') ∨ e' ∈ (byServed l).drop U := by
    intro e'
    rw [(round_perm h.nodup).mem_iff, List.mem_append, List.mem_filterMap]
  have hmem : ∀ e, e ∈ l ↔ e ∈ due U l ∨ e ∈ (byServed l).drop U := by
    intro e
    rw [← (due_append_drop U l).mem_iff, List.mem_append]
  constructor
  · rintro ⟨hmost, htotal⟩
    constructor
    · intro e he
      rcases (hmem e).mp he with hd | hr
      · cases hs : served T e with
        | none =>
          rw [served] at hs
          split at hs
          · omega
          · cases hs
        | some e' =>
          have := hmost e' ((hround e').mpr (.inl ⟨e, hd, hs⟩))
          have := (served_eq hs).2.1
          omega
      · have := hmost e ((hround e).mpr (.inr hr))
        omega
    · rw [Nat.mul_succ]
      omega
  · rintro ⟨hmost, htotal⟩
    rw [Nat.mul_succ] at htotal
    have hserved : ∀ e e', e ∈ due U l → served T e = some e' → T - e'.2 ≤ N := by
      intro e e' hd hs
      have := hmost e (mem_of_mem_due hd)
      have := (served_eq hs).2.1
      omega
    by_cases hall : l.length ≤ U
    · -- every entry is served
      have hrest : (byServed l).drop U = [] :=
        List.drop_of_length_le (by rw [(byServed_perm l).length_eq]; exact hall)
      have hle : ∀ e' ∈ round T U l, T - e'.2 ≤ N := by
        intro e' he'
        rcases (hround e').mp he' with ⟨e, hd, hs⟩ | hr
        · exact hserved e e' hd hs
        · rw [hrest] at hr
          cases hr
      refine ⟨hle, (left_le hle).trans (Nat.mul_le_mul_right N ?_)⟩
      exact (List.length_filterMap_le _ _).trans hall
    · -- `U` entries are served; one that is not has no more left than they have
      refine ⟨fun e' he' => ?_, by omega⟩
      rcases (hround e').mp he' with ⟨e, hd, hs⟩ | hr
      · exact hserved e e' hd hs
      · by_contra hmore
        have hdue : ∀ d ∈ due U l, N + 1 ≤ T - d.2 := by
          intro d hd
          have := due_le hd hr
          omega
        have hsum := le_left hdue
        have hperm := left_perm (T := T) (p := fun _ => true) (due_append_drop U l)
        rw [left_append] at hperm
        have hpos := le_left (N := 1)
          fun e he => Nat.sub_pos_of_lt (h.lt e ((hmem e).mpr (.inr he)))
        have hone := List.length_pos_of_mem hr
        rw [hlen, Nat.min_eq_left (by omega), Nat.mul_succ] at hsum
        omega

theorem nil_iff_fits (h : Valid T l) (n : ℕ) : (round T U)^[n] l = [] ↔ Fits T U n l := by
  induction n generalizing l with
  | zero => exact (fits_zero_iff h).symm
  | succ n ih => rw [Function.iterate_succ_apply, ih h.round, fits_round h]

/-- **How long a queue lasts**: it is empty after exactly as many rounds as the larger of the most
that is left of one entry and of all that is left, shared out over full rounds. -/
theorem drained_iff (hU : 0 < U) (h : Valid T l) (n : ℕ) :
    (round T U)^[n] l = [] ↔
      max ((remaining T l).foldr max 0) ((remaining T l).sum ⌈/⌉ U) ≤ n := by
  rw [nil_iff_fits h, Nat.max_le, most_le_iff, ceilDiv_le_iff_le_mul hU, sum_remaining]
  rfl

/-! ### Who is served -/

/-- Whom each of `n` rounds serves. -/
def rounds (T U : ℕ) : ℕ → List (κ × ℕ) → List (List κ)
  | 0, _ => []
  | n + 1, l => (due U l).map Prod.fst :: rounds T U n (round T U l)

/-- What the rounds serve of an entry and what is left of it after them make what was left of it. -/
theorem count_rounds (h : Valid T l) (k : κ) (n : ℕ) :
    (rounds T U n l).flatten.count k + left T (· == k) ((round T U)^[n] l) = left T (· == k) l := by
  induction n generalizing l with
  | zero => simp [rounds]
  | succ n ih =>
    have hn := ih (h.round (U := U))
    have h1 := left_round (U := U) h (· == k)
    have hcount : ((due U l).map Prod.fst).count k = (due U l).countP fun e => e.1 == k := by
      rw [List.count, List.countP_map]
      rfl
    rw [rounds, List.flatten_cons, List.count_append, hcount, Function.iterate_succ_apply]
    omega

/-- What is left of one entry. -/
theorem left_of_mem (h : (l.map Prod.fst).Nodup) {e : κ × ℕ} (he : e ∈ l) :
    left T (· == e.1) l = T - e.2 := by
  induction l with
  | nil => cases he
  | cons a l ih =>
    rw [List.map_cons, List.nodup_cons] at h
    rw [left_cons]
    rcases List.mem_cons.mp he with rfl | he
    · -- the others have other keys
      have hzero : left T (· == e.1) l = 0 := by
        refine List.sum_eq_zero fun x hx => ?_
        obtain ⟨b, hb, rfl⟩ := List.mem_map.mp hx
        refine if_neg fun hkey => h.1 ?_
        exact (beq_iff_eq.mp hkey) ▸ List.mem_map_of_mem hb
      rw [hzero, if_pos (beq_self_eq_true _), Nat.add_zero]
    · rw [ih h.2 he, if_neg, Nat.zero_add]
      intro hkey
      exact h.1 ((beq_iff_eq.mp hkey).symm ▸ List.mem_map_of_mem he)

/-- **Each entry is served what was left of it** by the time the queue is empty. -/
theorem count_of_drained (h : Valid T l) {e : κ × ℕ} (he : e ∈ l) {n : ℕ}
    (hn : (round T U)^[n] l = []) : (rounds T U n l).flatten.count e.1 = T - e.2 := by
  have := count_rounds (U := U) h e.1 n
  rw [hn, left_of_mem h.nodup he] at this
  exact this

end Quota
