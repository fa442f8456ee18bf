/-
Logs in which every entry has its grounds.

* `Grounded J l` — each entry of `l` is justified by those before it;
  `grounded_concat`, `Grounded.append` — how such a log grows;
  `Grounded.exists_of_mem` — the part of the log that justifies an entry;
* `own i l` — the entries of one party of a log that several share, and
  `Grounded.of_own`, which takes their grounds to the whole log;
* `Grounded.unique` — entries with a key that is new at each of them are told apart
  by their keys.
-/
import Mathlib.Data.List.Basic

variable {α ι κ : Type*}

/-- Every entry is justified by those before it. -/
def Grounded (J : List α → α → Prop) (l : List α) : Prop :=
  ∀ before a after, l = before ++ a :: after → J before a

/-- The entries of one party, in order. -/
def own [DecidableEq ι] (i : ι) (l : List (ι × α)) : List α :=
  l.filterMap fun p => if p.1 = i then some p.2 else none

section own

variable [DecidableEq ι] {i j : ι} {a : α} {l l' : List (ι × α)} {acts : List α}

theorem mem_own : a ∈ own i l ↔ (i, a) ∈ l := by
  rw [own, List.mem_filterMap]
  constructor
  · rintro ⟨⟨j, b⟩, hmem, hb⟩
    obtain ⟨hji, hba⟩ := Option.ite_none_right_eq_some.mp hb
    obtain rfl : j = i := hji
    obtain rfl : b = a := Option.some.inj hba
    exact hmem
  · exact fun h => ⟨(i, a), h, if_pos rfl⟩

theorem own_append : own i (l ++ l') = own i l ++ own i l' := List.filterMap_append

theorem own_map_self : own i (acts.map (i, ·)) = acts := by
  rw [own, List.filterMap_map]
  simp

theorem own_map_ne (h : j ≠ i) : own i (acts.map (j, ·)) = [] := by
  rw [own, List.filterMap_map]
  simp [h]

end own

theorem sublist_concat {chain before after : List α} {a : α} (h : chain.Sublist before) :
    (chain ++ [a]).Sublist (before ++ a :: after) :=
  h.append (List.singleton_sublist.mpr List.mem_cons_self)

namespace Grounded

variable {J : List α → α → Prop} {l l' : List α} {a b : α}

theorem nil : Grounded J [] := fun _ _ _ h => absurd h.symm (by simp)

/-- A log grows by entries that what is there, and the new entries before them, justify. -/
theorem append (h : Grounded J l)
    (h' : ∀ before a after, l' = before ++ a :: after → J (l ++ before) a) :
    Grounded J (l ++ l') := by
  intro before a after heq
  rcases List.append_eq_append_iff.mp heq with ⟨x, rfl, hx⟩ | ⟨x, hl, hx⟩
  · exact h' x a after hx
  · cases x with
    | nil =>
      rw [List.append_nil] at hl
      have := h' [] a after hx.symm
      rwa [List.append_nil, hl] at this
    | cons c x =>
      obtain ⟨rfl, -⟩ := List.cons.inj hx
      exact h before a x hl

theorem concat (h : Grounded J l) (ha : J l a) : Grounded J (l ++ [a]) := by
  refine h.append fun before b after heq => ?_
  cases before with
  | nil =>
    obtain ⟨rfl, -⟩ := List.cons.inj heq
    rwa [List.append_nil]
  | cons c before => exact absurd (congrArg List.length heq) (by simp)

/-- What justifies an entry. -/
theorem exists_of_mem (h : Grounded J l) (ha : a ∈ l) :
    ∃ before after, l = before ++ a :: after ∧ J before a := by
  obtain ⟨before, after, rfl⟩ := List.append_of_mem ha
  exact ⟨before, after, rfl, h before a after rfl⟩

/-- The part of a log before an entry is such a log. -/
theorem before (h : Grounded J (l ++ l')) : Grounded J l := by
  intro before a after heq
  exact h before a (after ++ l') (by rw [heq, List.append_assoc]; rfl)

/-- The grounds that an entry has among those of its party. -/
theorem of_own [DecidableEq ι] {i : ι} {before after : List (ι × α)}
    (h : Grounded J (own i (before ++ (i, a) :: after))) : J (own i before) a := by
  refine h (own i before) a (own i after) ?_
  rw [own_append]
  congr 1
  exact List.filterMap_cons_some (if_pos rfl)

/-- Entries whose keys are new at each of them have different keys. -/
theorem unique {f : α → Option κ} {k : κ} (h : Grounded J l)
    (hnew : ∀ before a, J before a → f a = some k → ∀ b ∈ before, f b ≠ some k)
    (ha : a ∈ l) (hb : b ∈ l) (hka : f a = some k) (hkb : f b = some k) : a = b := by
  obtain ⟨before, after, rfl, hJ⟩ := h.exists_of_mem ha
  rcases List.mem_append.mp hb with hb | hb
  · exact absurd hkb (hnew before a hJ hka b hb)
  · rcases List.mem_cons.mp hb with rfl | hb
    · rfl
    · -- the later one is not new
      obtain ⟨x, y, rfl⟩ := List.append_of_mem hb
      have hJ' := h (before ++ a :: x) b y (by simp)
      exact absurd hka (hnew _ b hJ' hkb a (by simp))

end Grounded
