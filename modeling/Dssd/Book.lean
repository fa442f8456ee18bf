/-
A book of values that everybody reads in the same order.

Values are written down under tickets, each ticket once.  Some of the tickets are chosen,
one after the other and for good, and every reader is given the chosen ones from the first
on, as fast as it likes.

* `Book`, `Book.Step` — the states and the steps;
* `Book.Later` — what no step takes back; `Book.Valid` — chosen tickets are different and
  have been written; `Book.Steps.later`, `Book.Steps.valid`;
* `Book.fate` — a ticket that one reader has been given at a place is given to every reader
  at that place, and one that had its place taken is given to nobody;
* `Book.order` — what was chosen before a ticket was written comes before it.
-/
import Dssd.Ledger
import Mathlib.Logic.Relation

open Function (update)

/-- Readers `ι`, tickets `κ` and values `V`: what has been written, which tickets have been
chosen, and how many of those each reader has been given. -/
structure Book (ι κ V : Type*) where
  written : κ → Option V
  chosen : List κ
  read : ι → ℕ

namespace Book

variable {ι κ V : Type*}

/-- Nothing has been written. -/
def blank : Book ι κ V := ⟨fun _ => none, [], fun _ => 0⟩

/-- The tickets that a reader has been given. -/
def view (b : Book ι κ V) (i : ι) : List κ := b.chosen.take (b.read i)

section steps

variable [DecidableEq ι] [DecidableEq κ] {b b' : Book ι κ V}

/-- Write under a fresh ticket, choose written tickets, or give a reader more of them. -/
inductive Step : Book ι κ V → Book ι κ V → Prop
  | write (b : Book ι κ V) (k : κ) (v : V) (fresh : b.written k = none) :
    Step b { b with written := update b.written k (some v) }
  | choose (b : Book ι κ V) (ks : List κ) (written : ∀ k ∈ ks, (b.written k).isSome = true)
    (nodup : (b.chosen ++ ks).Nodup) : Step b { b with chosen := b.chosen ++ ks }
  | give (b : Book ι κ V) (i : ι) (n : ℕ) (le : b.read i ≤ n) (ge : n ≤ b.chosen.length) :
    Step b { b with read := update b.read i n }

/-- A run leads from `b` to `b'`. -/
def Steps (b b' : Book ι κ V) : Prop := Relation.ReflTransGen Step b b'

/-- What is kept for ever. -/
structure Later (b b' : Book ι κ V) : Prop where
  written : ∀ k v, b.written k = some v → b'.written k = some v
  chosen : b.chosen <+: b'.chosen
  read : ∀ i, b.read i ≤ b'.read i

omit [DecidableEq ι] [DecidableEq κ] in
theorem Later.refl (b : Book ι κ V) : Later b b :=
  ⟨fun _ _ h => h, List.prefix_rfl, fun _ => le_rfl⟩

omit [DecidableEq ι] [DecidableEq κ] in
theorem Later.trans {b'' : Book ι κ V} (h : Later b b') (h' : Later b' b'') : Later b b'' where
  written k v hk := h'.written k v (h.written k v hk)
  chosen := h.chosen.trans h'.chosen
  read i := (h.read i).trans (h'.read i)

/-- The chosen tickets are different and have been written, and readers are given no others. -/
structure Valid (b : Book ι κ V) : Prop where
  nodup : b.chosen.Nodup
  written : ∀ k ∈ b.chosen, (b.written k).isSome = true
  read : ∀ i, b.read i ≤ b.chosen.length

theorem Step.later (h : Step b b') : Later b b' := by
  cases h with
  | write k v fresh =>
    refine ⟨fun k' v' hk' => ?_, List.prefix_rfl, fun _ => le_rfl⟩
    have hne : k' ≠ k := by
      rintro rfl
      rw [fresh] at hk'
      cases hk'
    exact (Function.update_of_ne hne _ _).trans hk'
  | choose ks _ _ => exact ⟨fun _ _ h => h, List.prefix_append _ _, fun _ => le_rfl⟩
  | give i n le _ =>
    refine ⟨fun _ _ h => h, List.prefix_rfl, fun j => ?_⟩
    show b.read j ≤ update b.read i n j
    by_cases hj : j = i
    · rw [hj, Function.update_self]
      exact le
    · rw [Function.update_of_ne hj]

theorem Step.valid (h : Step b b') (hv : Valid b) : Valid b' := by
  have hl := h.later
  have hwritten : ∀ k, (b.written k).isSome = true → (b'.written k).isSome = true := by
    intro k hk
    obtain ⟨v, hv⟩ := Option.isSome_iff_exists.mp hk
    exact Option.isSome_iff_exists.mpr ⟨v, hl.written k v hv⟩
  cases h with
  | write k v fresh => exact ⟨hv.nodup, fun k' hk' => hwritten k' (hv.written k' hk'), hv.read⟩
  | choose ks written nodup =>
    refine ⟨nodup, fun k hk => ?_, fun i => (hv.read i).trans hl.chosen.length_le⟩
    rcases List.mem_append.mp hk with hk | hk
    · exact hv.written k hk
    · exact written k hk
  | give i n le ge =>
    refine ⟨hv.nodup, hv.written, fun j => ?_⟩
    show update b.read i n j ≤ b.chosen.length
    by_cases hj : j = i
    · rw [hj, Function.update_self]
      exact ge
    · rw [Function.update_of_ne hj]
      exact hv.read j

theorem Steps.later (h : Steps b b') : Later b b' := by
  induction h with
  | refl => exact Later.refl _
  | tail _ hs ih => exact ih.trans hs.later

theorem Steps.valid (h : Steps b b') (hv : Valid b) : Valid b' := by
  induction h with
  | refl => exact hv
  | tail _ hs ih => exact hs.valid ih

/-- A book with a fresh ticket written, more tickets chosen, and more given to one reader. -/
theorem steps_of_grown (hv : Valid b')
    (hw : b'.written = b.written ∨
      ∃ k v, b.written k = none ∧ b'.written = update b.written k (some v))
    (hc : b.chosen <+: b'.chosen)
    (hr : b'.read = b.read ∨ ∃ i n, b.read i ≤ n ∧ b'.read = update b.read i n) : Steps b b' := by
  obtain ⟨W, C, R⟩ := b
  obtain ⟨W', C', R'⟩ := b'
  dsimp only at hw hc hr
  have hwrite : Steps ⟨W, C, R⟩ ⟨W', C, R⟩ := by
    rcases hw with rfl | ⟨k, v, hk, rfl⟩
    · exact .refl
    · exact .single (.write ⟨W, C, R⟩ k v hk)
  have hchoose : Steps ⟨W', C, R⟩ ⟨W', C', R⟩ := by
    obtain ⟨ks, rfl⟩ := hc
    exact .single (.choose ⟨W', C, R⟩ ks
      (fun k hk => hv.written k (List.mem_append_right _ hk)) hv.nodup)
  have hgive : Steps ⟨W', C', R⟩ ⟨W', C', R'⟩ := by
    rcases hr with rfl | ⟨i, n, hle, rfl⟩
    · exact .refl
    · have hn := hv.read i
      dsimp only at hn
      rw [Function.update_self] at hn
      exact .single (.give ⟨W', C', R⟩ i n hle hn)
  exact (hwrite.trans hchoose).trans hgive

/-! ### Readers -/

omit [DecidableEq ι] [DecidableEq κ] in
theorem view_isPrefix (b : Book ι κ V) (i : ι) : b.view i <+: b.chosen := List.take_prefix _ _

/-- **The fate of a ticket.**  Once a reader has been given `k` at place `n`, whoever is given a
ticket at that place is given `k`, and nobody is given `k` at another place. -/
theorem fate (h : Steps b b') (hv : Valid b) {i j : ι} {k k' : κ} {n n' : ℕ}
    (hi : (b.view i)[n]? = some k) (hj : (b'.view j)[n']? = some k') : n' = n ↔ k' = k := by
  have hk := Ledger.getElem?_of_isPrefix ((b.view_isPrefix i).trans h.later.chosen) hi
  have hk' := Ledger.getElem?_of_isPrefix (b'.view_isPrefix j) hj
  constructor
  · rintro rfl
    exact Option.some_inj.mp (hk'.symm.trans hk)
  · rintro rfl
    exact (List.getElem?_inj (Ledger.lt_length_of_getElem? hk') (h.valid hv).nodup).mp
      (hk'.trans hk.symm)

/-- **Real time.**  What was chosen before a ticket was written comes before it. -/
theorem order (h : Steps b b') (hv : Valid b) {k : κ} (hk : b.written k = none) {n : ℕ}
    (hn : b'.chosen[n]? = some k) : b.chosen.length ≤ n := by
  by_contra hlt
  have hget : b.chosen[n]? = some k := by
    obtain ⟨rest, hrest⟩ := h.later.chosen
    rw [← hrest, List.getElem?_append_left (by omega)] at hn
    exact hn
  have := hv.written k (List.mem_of_getElem? hget)
  rw [hk] at this
  cases this

end steps

end Book
