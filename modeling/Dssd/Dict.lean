/-
Dictionaries with string keys, in insertion order.

A `Dict` is the list of its items together with the fact that no key occurs
twice.  An assignment replaces the value of a key that is there and puts a new
key at the end.

* `Dict.get?_set`, `Dict.get?_erase` — what is read after an assignment and a deletion;
* `Dict.get?_eq_some_iff`, `Dict.items_set_of_mem` — the same in terms of the items;
* `Dict.ofKeys`, `Dict.get?_ofKeys` — a dictionary that is made from its keys.
-/
import Mathlib.Data.List.Nodup

/-- Items with distinct keys. -/
structure Dict (α : Type*) where
  items : List (String × α)
  nodup : (items.map Prod.fst).Nodup

namespace Dict

variable {α : Type*}

def empty : Dict α := ⟨[], List.nodup_nil⟩

/-- The value of `k` among some items. -/
def lookup (k : String) : List (String × α) → Option α
  | [] => none
  | (k', x) :: l => if k' = k then some x else lookup k l

def get? (d : Dict α) (k : String) : Option α := lookup k d.items

/-- What the assignment of `x` to `k` leaves of some items. -/
def assign (k : String) (x : α) : List (String × α) → List (String × α)
  | [] => [(k, x)]
  | (k', y) :: l => if k' = k then (k, x) :: l else (k', y) :: assign k x l

theorem lookup_assign (k k' : String) (x : α) (l : List (String × α)) :
    lookup k' (assign k x l) = if k' = k then some x else lookup k' l := by
  induction l with
  | nil =>
    show (if k = k' then some x else none) = _
    simp only [eq_comm (a := k), lookup]
  | cons p l ih =>
    obtain ⟨j, y⟩ := p
    unfold assign
    split
    · rename_i hj
      subst hj
      by_cases hk : k' = j
      · simp [lookup, hk]
      · simp [lookup, hk, Ne.symm hk]
    · rename_i hj
      rw [lookup, ih, lookup]
      by_cases hk : j = k'
      · subst hk
        rw [if_pos rfl, if_pos rfl, if_neg hj]
      · rw [if_neg hk, if_neg hk]

theorem mem_keys_assign {k k' : String} {x : α} {l : List (String × α)}
    (h : k' ∈ (assign k x l).map Prod.fst) : k' = k ∨ k' ∈ l.map Prod.fst := by
  induction l with
  | nil => exact .inl (by simpa [assign] using h)
  | cons p l ih =>
    unfold assign at h
    split at h
    · rename_i hp
      rcases List.mem_cons.mp h with h | h
      · exact .inl h
      · exact .inr (List.mem_cons_of_mem _ h)
    · rcases List.mem_cons.mp h with h | h
      · exact .inr (List.mem_cons.mpr (.inl h))
      · rcases ih h with h | h
        · exact .inl h
        · exact .inr (List.mem_cons_of_mem _ h)

theorem nodup_assign {k : String} {x : α} {l : List (String × α)}
    (h : (l.map Prod.fst).Nodup) : ((assign k x l).map Prod.fst).Nodup := by
  induction l with
  | nil => simp [assign]
  | cons p l ih =>
    rw [List.map_cons, List.nodup_cons] at h
    unfold assign
    split
    · rename_i hp
      rw [List.map_cons, List.nodup_cons]
      exact ⟨hp ▸ h.1, h.2⟩
    · rename_i hp
      rw [List.map_cons, List.nodup_cons]
      refine ⟨fun hmem => ?_, ih h.2⟩
      rcases mem_keys_assign hmem with heq | hmem
      · exact hp heq
      · exact h.1 hmem

/-- `d[k] = x` -/
def set (d : Dict α) (k : String) (x : α) : Dict α := ⟨assign k x d.items, nodup_assign d.nodup⟩

theorem items_set_ne_nil (d : Dict α) (k : String) (x : α) : (d.set k x).items ≠ [] := by
  show assign k x d.items ≠ []
  cases d.items with
  | nil => exact List.cons_ne_nil _ _
  | cons p l =>
    unfold assign
    split <;> exact List.cons_ne_nil _ _

theorem get?_set (d : Dict α) (k k' : String) (x : α) :
    (d.set k x).get? k' = if k' = k then some x else d.get? k' :=
  lookup_assign k k' x d.items

@[simp] theorem get?_set_self (d : Dict α) (k : String) (x : α) : (d.set k x).get? k = some x := by
  rw [get?_set, if_pos rfl]

theorem get?_set_ne (d : Dict α) {k k' : String} (x : α) (h : k' ≠ k) :
    (d.set k x).get? k' = d.get? k' := by
  rw [get?_set, if_neg h]

/-- `{k: f(k) for k in keys}` -/
def ofKeys (f : String → α) (keys : List String) : Dict α :=
  keys.foldl (fun d k => d.set k (f k)) empty

theorem get?_foldl_set (f : String → α) (keys : List String) (d : Dict α) (k : String) :
    (keys.foldl (fun d k => d.set k (f k)) d).get? k =
      if k ∈ keys then some (f k) else d.get? k := by
  induction keys generalizing d with
  | nil => rfl
  | cons k' keys ih =>
    rw [List.foldl_cons, ih, get?_set]
    by_cases hk : k = k'
    · subst hk
      simp
    · simp [hk]

theorem get?_ofKeys (f : String → α) (keys : List String) (k : String) :
    (ofKeys f keys).get? k = if k ∈ keys then some (f k) else none :=
  get?_foldl_set f keys empty k

theorem lookup_eq_some_iff {k : String} {x : α} {l : List (String × α)}
    (h : (l.map Prod.fst).Nodup) : lookup k l = some x ↔ (k, x) ∈ l := by
  induction l with
  | nil => simp [lookup]
  | cons p l ih =>
    obtain ⟨j, y⟩ := p
    rw [List.map_cons, List.nodup_cons] at h
    rw [lookup, List.mem_cons]
    split
    · rename_i hj
      subst hj
      -- the key is not among the other items
      have hnot : (j, x) ∉ l := fun hmem => h.1 (List.mem_map.mpr ⟨(j, x), hmem, rfl⟩)
      simp [hnot, eq_comm]
    · rename_i hj
      rw [ih h.2]
      constructor
      · exact .inr
      · rintro (heq | hmem)
        · exact absurd (congrArg Prod.fst heq).symm hj
        · exact hmem

theorem get?_eq_some_iff {d : Dict α} {k : String} {x : α} :
    d.get? k = some x ↔ (k, x) ∈ d.items :=
  lookup_eq_some_iff d.nodup

/-- `d.values()` -/
def values (d : Dict α) : List α := d.items.map Prod.snd

theorem mem_values {d : Dict α} {x : α} : x ∈ d.values ↔ ∃ k, d.get? k = some x := by
  simp [values, get?_eq_some_iff]

theorem assign_of_mem {k : String} {x : α} {l : List (String × α)} (h : (l.map Prod.fst).Nodup)
    (hk : k ∈ l.map Prod.fst) : assign k x l = l.map fun p => if p.1 = k then (k, x) else p := by
  induction l with
  | nil => cases hk
  | cons p l ih =>
    rw [List.map_cons, List.nodup_cons] at h
    unfold assign
    split
    · rename_i hp
      have hrest : l.map (fun p => if p.1 = k then (k, x) else p) = l.map id := by
        refine List.map_congr_left fun q hq => if_neg fun heq => h.1 ?_
        rw [hp, ← heq]
        exact List.mem_map_of_mem hq
      rw [List.map_cons, if_pos hp, hrest, List.map_id]
    · rename_i hp
      rw [List.map_cons, if_neg hp, ih h.2]
      exact (List.mem_cons.mp hk).resolve_left (Ne.symm hp)

/-- An assignment to a key that is there replaces its value. -/
theorem items_set_of_mem {d : Dict α} {k : String} (x : α) (hk : k ∈ d.items.map Prod.fst) :
    (d.set k x).items = d.items.map fun p => if p.1 = k then (k, x) else p :=
  assign_of_mem d.nodup hk

theorem assign_of_not_mem {k : String} {x : α} {l : List (String × α)}
    (hk : k ∉ l.map Prod.fst) : assign k x l = l ++ [(k, x)] := by
  induction l with
  | nil => rfl
  | cons p l ih =>
    rw [List.map_cons, List.mem_cons, not_or] at hk
    rw [assign, if_neg (Ne.symm hk.1), ih hk.2, List.cons_append]

/-- An assignment to a new key puts it last. -/
theorem items_set_of_not_mem {d : Dict α} {k : String} (x : α) (hk : k ∉ d.items.map Prod.fst) :
    (d.set k x).items = d.items ++ [(k, x)] :=
  assign_of_not_mem hk

/-- `del d[k]` -/
def erase (d : Dict α) (k : String) : Dict α where
  items := d.items.filter fun p => p.1 ≠ k
  nodup := d.nodup.sublist (List.filter_sublist.map _)

theorem get?_erase (d : Dict α) (k k' : String) :
    (d.erase k).get? k' = if k' = k then none else d.get? k' := by
  refine Option.ext fun x => ?_
  rw [get?_eq_some_iff]
  show (k', x) ∈ d.items.filter _ ↔ _
  rw [List.mem_filter, ← get?_eq_some_iff]
  by_cases hk : k' = k
  · simp [hk]
  · simp [hk]

end Dict
