/-
Term ledgers: agreement on a replicated log, without messages.

Nodes move through numbered terms.  A term may be won by one node, its owner,
with the votes of a majority; from then on the owner extends the *ledger* of
the term, and other nodes acknowledge prefixes of it into their own logs.  A
position of a ledger is `Chosen` once a majority has acknowledged it in that
very term and its entry was created there.

This file says nothing about how votes and entries travel.  It has

* `State`, the bookkeeping, and its five moves `advance`, `cast`, `elect`,
  `append`, `accept`;
* `Inv`, the invariant, kept by each move (`Inv.advance`, …, `Inv.accept`);
* `State.Ext`, the order along which every move goes: facts such as `Chosen`
  and `Barred` are stable under it;
* `Inv.carries_of_upToDate` — comparing last entries is enough for a vote;
* `Chosen.holds_ledger`, `Chosen.holds_log`, `Chosen.comparable` — what is
  chosen stays in every later ledger, in a majority of logs, and is unique.
-/
import Mathlib.Data.Finset.Card
import Mathlib.Data.List.Infix
import Mathlib.Order.Lattice
import Mathlib.Logic.Function.Basic

open Function (update)

namespace Ledger

/-- Entries carry the number of the term they were created in. -/
class Termed (E : Type*) where
  termOf : E → ℕ

export Termed (termOf)

variable {ι E : Type*}

/-! ### Majorities -/

/-- A majority of `members`. -/
def IsQuorum (members q : Finset ι) : Prop := q ⊆ members ∧ members.card < 2 * q.card

theorem IsQuorum.inter {members q r : Finset ι} (hq : IsQuorum members q)
    (hr : IsQuorum members r) : ∃ j, j ∈ q ∧ j ∈ r := by
  classical
  have hlt : members.card < q.card + r.card := by
    have := hq.2
    have := hr.2
    omega
  obtain ⟨j, hj⟩ := Finset.inter_nonempty_of_card_lt_card_add_card hq.1 hr.1 hlt
  exact ⟨j, Finset.mem_inter.mp hj⟩

/-! ### Prefixes -/

section prefixes

variable {α : Type*}

theorem take_eq_of_isPrefix {l m : List α} {n : ℕ} (h : l <+: m) (hn : n ≤ l.length) :
    m.take n = l.take n := by
  obtain ⟨t, rfl⟩ := h
  rw [List.take_append_of_le_length hn]

theorem getElem?_of_isPrefix {l m : List α} {n : ℕ} {e : α} (h : l <+: m) (hn : l[n]? = some e) :
    m[n]? = some e := by
  obtain ⟨t, rfl⟩ := h
  rw [List.getElem?_append_left (List.getElem?_eq_some_iff.mp hn).1]
  exact hn

theorem getElem?_of_take_isPrefix {l m : List α} {n k : ℕ} {e : α} (h : l.take k <+: m) (hk : n < k)
    (hn : l[n]? = some e) : m[n]? = some e :=
  getElem?_of_isPrefix h (by rw [List.getElem?_take_of_lt hk, hn])

theorem lt_length_of_getElem? {l : List α} {n : ℕ} {e : α} (h : l[n]? = some e) : n < l.length :=
  (List.getElem?_eq_some_iff.mp h).1

/-- The log after an acknowledgement keeps every prefix it shares with the ledger. -/
theorem isPrefix_of_merge {old new led p : List α} {k : ℕ}
    (hnew : led.take k <+: new)
    (hmerge : new = old ∨ new = led.take k ∧ ¬ led.take k <+: old)
    (hold : p <+: old) (hled : p <+: led) : p <+: new := by
  rcases hmerge with rfl | ⟨rfl, hnot⟩
  · exact hold
  · rcases le_total p.length k with hk | hk
    · exact List.prefix_take_iff.mpr ⟨hled, hk⟩
    · -- otherwise what is acknowledged is a prefix of `p`, and there was no conflict
      refine absurd (List.IsPrefix.trans ?_ hold) hnot
      rw [take_eq_of_isPrefix hled hk]
      exact List.take_prefix _ _

end prefixes

/-- Updating one cell of a table leaves the other cells alone. -/
theorem update_update_ne {α : Type*} [DecidableEq ι] {f : ι → ℕ → α} {i j : ι} {t u : ℕ} {x : α}
    (h : j ≠ i ∨ u ≠ t) : update f i (update (f i) t x) j u = f j u := by
  by_cases hj : j = i
  · subst hj
    rw [Function.update_self, Function.update_of_ne (h.resolve_left (by simp))]
  · rw [Function.update_of_ne hj]

/-! ### States -/

/-- Terms, logs and votes of the nodes, and the ledger and owner of each term.
`acked i t` is the number of entries of ledger `t` that node `i` stored while in
term `t`. -/
structure State (ι E : Type*) where
  term : ι → ℕ
  log : ι → List E
  ledger : ℕ → List E
  acked : ι → ℕ → ℕ
  vote : ι → ℕ → Option ι
  owner : ℕ → Option ι

variable {members : Finset ι} {s s' : State ι E}

namespace State

/-- The log `l` has ledger `t` up to position `n`. -/
def Holds (s : State ι E) (l : List E) (t n : ℕ) : Prop := (s.ledger t).take (n + 1) <+: l

/-- Position `n` of ledger `t` can no longer be chosen: a majority has left term
`t` without acknowledging it. -/
def Barred (members : Finset ι) (s : State ι E) (t n : ℕ) : Prop :=
  ∃ q, IsQuorum members q ∧ ∀ j ∈ q, t < s.term j ∧ s.acked j t ≤ n

/-- The order in which states grow. -/
structure Ext (s s' : State ι E) : Prop where
  term_le : ∀ i, s.term i ≤ s'.term i
  ledger : ∀ t, s.ledger t <+: s'.ledger t
  acked_le : ∀ i t, s.acked i t ≤ s'.acked i t
  acked_eq : ∀ i t, t < s.term i → s'.acked i t = s.acked i t
  vote : ∀ i t c, s.vote i t = some c → s'.vote i t = some c
  owner : ∀ t i, s.owner t = some i → s'.owner t = some i

theorem Ext.refl (s : State ι E) : Ext s s where
  term_le _ := le_rfl
  ledger _ := List.prefix_rfl
  acked_le _ _ := le_rfl
  acked_eq _ _ _ := rfl
  vote _ _ _ h := h
  owner _ _ h := h

theorem Ext.trans {a b c : State ι E} (h₁ : Ext a b) (h₂ : Ext b c) : Ext a c where
  term_le i := (h₁.term_le i).trans (h₂.term_le i)
  ledger t := (h₁.ledger t).trans (h₂.ledger t)
  acked_le i t := (h₁.acked_le i t).trans (h₂.acked_le i t)
  acked_eq i t h := by
    rw [h₂.acked_eq i t (lt_of_lt_of_le h (h₁.term_le i)), h₁.acked_eq i t h]
  vote i t c h := h₂.vote i t c (h₁.vote i t c h)
  owner t i h := h₂.owner t i (h₁.owner t i h)

theorem Holds.ext {l : List E} {t n : ℕ} (h : s.Holds l t n) (hx : Ext s s')
    (hn : n < (s.ledger t).length) : s'.Holds l t n := by
  unfold Holds
  rw [take_eq_of_isPrefix (hx.ledger t) hn]
  exact h

theorem Holds.mono {l m : List E} {t n : ℕ} (h : s.Holds l t n) (hlm : l <+: m) :
    s.Holds m t n :=
  List.IsPrefix.trans h hlm

theorem Holds.le {l : List E} {t n k : ℕ} (h : s.Holds l t n) (hk : k ≤ n) : s.Holds l t k := by
  refine List.IsPrefix.trans ?_ h
  exact List.take_prefix_take_left (by omega)

theorem Barred.ext {t n : ℕ} (h : s.Barred members t n) (hx : Ext s s') :
    s'.Barred members t n := by
  obtain ⟨q, hq, hj⟩ := h
  refine ⟨q, hq, fun j hjq => ⟨(hj j hjq).1.trans_le (hx.term_le j), ?_⟩⟩
  rw [hx.acked_eq j t (hj j hjq).1]
  exact (hj j hjq).2

end State

open State

/-! ### Moves -/

section moves

variable [DecidableEq ι]

/-- Node `i` moves on to term `t`. -/
def State.advance (s : State ι E) (i : ι) (t : ℕ) : State ι E :=
  { s with term := update s.term i t }

theorem State.ext_advance {i : ι} {t : ℕ} (h : s.term i ≤ t) : Ext s (s.advance i t) := by
  refine { Ext.refl s with term_le := fun j => ?_, acked_eq := fun _ _ _ => rfl }
  by_cases hj : j = i
  · subst hj
    simpa [State.advance] using h
  · simp [State.advance, hj]

/-- Node `j` gives its vote of the term it is in to `c`. -/
def State.cast (s : State ι E) (j c : ι) : State ι E :=
  { s with vote := update s.vote j (update (s.vote j) (s.term j) (some c)) }

theorem State.cast_vote_self {j c : ι} : (s.cast j c).vote j (s.term j) = some c := by
  simp [State.cast]

theorem State.cast_vote_ne {j c k : ι} {t : ℕ} (h : k ≠ j ∨ t ≠ s.term j) :
    (s.cast j c).vote k t = s.vote k t :=
  update_update_ne h

theorem State.ext_cast {j c : ι} (h : s.vote j (s.term j) = none) : Ext s (s.cast j c) := by
  refine { Ext.refl s with vote := fun k t d hd => ?_, acked_eq := fun _ _ _ => rfl }
  rw [State.cast_vote_ne, hd]
  by_contra hne
  push Not at hne
  obtain ⟨rfl, rfl⟩ := hne
  rw [h] at hd
  exact absurd hd (by simp)

/-- Node `i` wins term `t`; its log becomes the ledger of the term. -/
def State.elect (s : State ι E) (i : ι) (t : ℕ) : State ι E :=
  { s with
    ledger := update s.ledger t (s.log i)
    acked := update s.acked i (update (s.acked i) t (s.log i).length)
    owner := update s.owner t (some i) }

section elect

variable {i : ι} {t : ℕ}

theorem State.elect_ledger_ne {u : ℕ} (h : u ≠ t) : (s.elect i t).ledger u = s.ledger u := by
  simp [State.elect, h]

@[simp] theorem State.elect_ledger_self : (s.elect i t).ledger t = s.log i := by
  simp [State.elect]

theorem State.elect_acked_ne {j : ι} {u : ℕ} (h : j ≠ i ∨ u ≠ t) :
    (s.elect i t).acked j u = s.acked j u :=
  update_update_ne h

@[simp] theorem State.elect_acked_self : (s.elect i t).acked i t = (s.log i).length := by
  simp [State.elect]

theorem State.ext_elect (hled : s.ledger t = []) (hack : s.acked i t = 0) (ht : s.term i = t)
    (hown : s.owner t = none) : Ext s (s.elect i t) where
  term_le _ := le_rfl
  ledger u := by
    by_cases hu : u = t
    · subst hu
      rw [hled]
      exact List.nil_prefix
    · rw [State.elect_ledger_ne hu]
  acked_le j u := by
    by_cases hj : j ≠ i ∨ u ≠ t
    · rw [State.elect_acked_ne hj]
    · push Not at hj
      obtain ⟨rfl, rfl⟩ := hj
      rw [hack]
      exact Nat.zero_le _
  acked_eq j u hu := State.elect_acked_ne (by
    by_contra hne
    push Not at hne
    obtain ⟨rfl, rfl⟩ := hne
    omega)
  vote _ _ _ h := h
  owner u c hc := by
    have hu : u ≠ t := by
      rintro rfl
      rw [hown] at hc
      exact absurd hc (by simp)
    simpa [State.elect, hu] using hc

end elect

/-- The owner `i` of term `t` adds an entry to the ledger, and to its own log. -/
def State.append (s : State ι E) (i : ι) (t : ℕ) (e : E) : State ι E :=
  { s with
    ledger := update s.ledger t (s.ledger t ++ [e])
    log := update s.log i (s.ledger t ++ [e])
    acked := update s.acked i (update (s.acked i) t (s.ledger t ++ [e]).length) }

section append

variable {i : ι} {t : ℕ} {e : E}

theorem State.append_ledger_ne {u : ℕ} (h : u ≠ t) : (s.append i t e).ledger u = s.ledger u := by
  simp [State.append, h]

@[simp] theorem State.append_ledger_self :
    (s.append i t e).ledger t = s.ledger t ++ [e] := by
  simp [State.append]

theorem State.append_log_ne {j : ι} (h : j ≠ i) : (s.append i t e).log j = s.log j := by
  simp [State.append, h]

@[simp] theorem State.append_log_self : (s.append i t e).log i = s.ledger t ++ [e] := by
  simp [State.append]

theorem State.append_acked_ne {j : ι} {u : ℕ} (h : j ≠ i ∨ u ≠ t) :
    (s.append i t e).acked j u = s.acked j u :=
  update_update_ne h

@[simp] theorem State.append_acked_self :
    (s.append i t e).acked i t = (s.ledger t).length + 1 := by
  simp [State.append]

end append

/-- Node `i` acknowledges the first `k` entries of ledger `t`, with `l` as its new log. -/
def State.accept (s : State ι E) (i : ι) (t k : ℕ) (l : List E) : State ι E :=
  { s with
    log := update s.log i l
    acked := update s.acked i (update (s.acked i) t (max (s.acked i t) k)) }

section accept

variable {i : ι} {t k : ℕ} {l : List E}

theorem State.accept_acked_ne {j : ι} {u : ℕ} (h : j ≠ i ∨ u ≠ t) :
    (s.accept i t k l).acked j u = s.acked j u :=
  update_update_ne h

@[simp] theorem State.accept_acked_self :
    (s.accept i t k l).acked i t = max (s.acked i t) k := by
  simp [State.accept]

theorem State.accept_log_ne {j : ι} (h : j ≠ i) : (s.accept i t k l).log j = s.log j := by
  simp [State.accept, h]

@[simp] theorem State.accept_log_self : (s.accept i t k l).log i = l := by
  simp [State.accept]

theorem State.ext_accept (ht : s.term i = t) : Ext s (s.accept i t k l) where
  term_le _ := le_rfl
  ledger _ := List.prefix_rfl
  acked_le j u := by
    by_cases hj : j ≠ i ∨ u ≠ t
    · rw [State.accept_acked_ne hj]
    · push Not at hj
      obtain ⟨rfl, rfl⟩ := hj
      rw [State.accept_acked_self]
      exact le_max_left _ _
  acked_eq j u hu := State.accept_acked_ne (by
    by_contra hne
    push Not at hne
    obtain ⟨rfl, rfl⟩ := hne
    omega)
  vote _ _ _ h := h
  owner _ _ h := h

end accept

end moves

/-! ### The invariant -/

variable [Termed E]

namespace State

/-- Position `n` of ledger `t` was created in term `t` itself. -/
def Own (s : State ι E) (t n : ℕ) : Prop := ∃ e, (s.ledger t)[n]? = some e ∧ termOf e = t

/-- A majority acknowledged position `n` of ledger `t` in term `t`, which created it. -/
def Chosen (members : Finset ι) (s : State ι E) (t n : ℕ) : Prop :=
  s.Own t n ∧ ∃ q, IsQuorum members q ∧ ∀ j ∈ q, n < s.acked j t

/-- Every entry of `l` sits there on top of the ledger of its own term. -/
def WellFormed (s : State ι E) (l : List E) : Prop :=
  ∀ n e, l[n]? = some e → l.take (n + 1) <+: s.ledger (termOf e)

/-- Whatever node `j` acknowledged before term `t`, and can still be chosen, is in `l`. -/
def Carries (members : Finset ι) (s : State ι E) (j : ι) (l : List E) (t : ℕ) : Prop :=
  ∀ u < t, ∀ n < s.acked j u, s.Own u n → s.Holds l u n ∨ s.Barred members u n

end State

/-- The invariant of term ledgers. -/
structure Inv (members : Finset ι) (s : State ι E) : Prop where
  wf_log : ∀ i, s.WellFormed (s.log i)
  wf_ledger : ∀ t, s.WellFormed (s.ledger t)
  log_le : ∀ i, ∀ e ∈ s.log i, termOf e ≤ s.term i
  ledger_le : ∀ t, ∀ e ∈ s.ledger t, termOf e ≤ t
  /-- A term nobody won has no ledger. -/
  unowned : ∀ t, 0 < t → s.owner t = none → s.ledger t = []
  acked_le : ∀ i t, s.acked i t ≤ (s.ledger t).length
  acked_term : ∀ i t, 0 < s.acked i t → t ≤ s.term i
  vote_term : ∀ i t c, s.vote i t = some c → t ≤ s.term i
  /-- Owners were voted in by a majority. -/
  elected : ∀ t i, s.owner t = some i → ∃ q, IsQuorum members q ∧ ∀ j ∈ q, s.vote j t = some i
  /-- A node keeps what it acknowledged as long as it can be chosen. -/
  kept : ∀ i t, ∀ n < s.acked i t, s.Own t n → s.Holds (s.log i) t n ∨ s.Barred members t n
  /-- A ledger contains what can still be chosen of all earlier ones. -/
  safe : ∀ t, s.owner t ≠ none → ∀ u < t, ∀ n, s.Own u n →
    s.Holds (s.ledger t) u n ∨ s.Barred members u n

namespace State

theorem Own.lt_length {t n : ℕ} (h : s.Own t n) : n < (s.ledger t).length := by
  obtain ⟨e, he, -⟩ := h
  exact lt_length_of_getElem? he

theorem Own.ext {t n : ℕ} (h : s.Own t n) (hx : Ext s s') : s'.Own t n := by
  obtain ⟨e, he, ht⟩ := h
  exact ⟨e, getElem?_of_isPrefix (hx.ledger t) he, ht⟩

theorem Own.of_ext {t n : ℕ} (h : s'.Own t n) (hx : Ext s s') (hn : n < (s.ledger t).length) :
    s.Own t n := by
  obtain ⟨e, he, ht⟩ := h
  obtain ⟨r, hr⟩ := hx.ledger t
  refine ⟨e, ?_, ht⟩
  rw [← hr, List.getElem?_append_left hn] at he
  exact he

theorem Chosen.ext {t n : ℕ} (h : s.Chosen members t n) (hx : Ext s s') :
    s'.Chosen members t n := by
  obtain ⟨ho, q, hq, hj⟩ := h
  exact ⟨ho.ext hx, q, hq, fun j hjq => (hj j hjq).trans_le (hx.acked_le j t)⟩

theorem Chosen.not_barred {t n : ℕ} (h : s.Chosen members t n) : ¬ s.Barred members t n := by
  rintro ⟨r, hr, hrj⟩
  obtain ⟨-, q, hq, hqj⟩ := h
  obtain ⟨j, hjq, hjr⟩ := hq.inter hr
  have h₁ := hqj j hjq
  have h₂ := (hrj j hjr).2
  omega

theorem WellFormed.ext {l : List E} (h : s.WellFormed l) (hx : Ext s s') : s'.WellFormed l :=
  fun n e he => (h n e he).trans (hx.ledger _)

theorem WellFormed.of_isPrefix {l m : List E} (h : s.WellFormed m) (hlm : l <+: m) :
    s.WellFormed l := by
  intro n e he
  rw [← take_eq_of_isPrefix hlm (lt_length_of_getElem? he)]
  exact h n e (getElem?_of_isPrefix hlm he)

theorem Carries.ext {j : ι} {l : List E} {t : ℕ} (h : s.Carries members j l t) (hi : Inv members s)
    (hx : Ext s s') (ht : t ≤ s.term j) : s'.Carries members j l t := by
  intro u hu n hn ho
  rw [hx.acked_eq j u (hu.trans_le ht)] at hn
  have hlen := hn.trans_le (hi.acked_le j u)
  rcases h u hu n hn (ho.of_ext hx hlen) with h' | h'
  · exact .inl (h'.ext hx hlen)
  · exact .inr (h'.ext hx)

end State

/-- Terms never decrease along a well-formed log. -/
theorem Inv.sorted (hi : Inv members s) {l : List E} (hl : s.WellFormed l) {n m : ℕ} {e f : E}
    (hnm : n ≤ m) (hn : l[n]? = some e) (hm : l[m]? = some f) : termOf e ≤ termOf f := by
  have hin : (s.ledger (termOf f))[n]? = some e :=
    getElem?_of_take_isPrefix (hl m f hm) (by omega) hn
  exact hi.ledger_le _ e (List.mem_of_getElem? hin)

theorem Inv.owner_of_mem (hi : Inv members s) {l : List E} (hl : s.WellFormed l) {e : E}
    (he : e ∈ l) (hpos : 0 < termOf e) : s.owner (termOf e) ≠ none := by
  intro hnone
  obtain ⟨n, hn⟩ := List.getElem?_of_mem he
  have hin := getElem?_of_take_isPrefix (hl n e hn) (Nat.lt_succ_self n) hn
  rw [hi.unowned _ hpos hnone] at hin
  exact absurd hin (by simp)

/-- Entries of the same term at the same position of well-formed logs have the same past. -/
theorem State.WellFormed.matching {l m : List E} (hl : s.WellFormed l) (hm : s.WellFormed m) {n : ℕ}
    {e f : E} (hn : l[n]? = some e) (hn' : m[n]? = some f) (hef : termOf e = termOf f) :
    l.take (n + 1) = m.take (n + 1) := by
  have h₁ := hl n e hn
  have h₂ := hm n f hn'
  rw [← hef] at h₂
  have hlen₁ : (l.take (n + 1)).length = n + 1 := by
    rw [List.length_take]
    have := lt_length_of_getElem? hn
    omega
  have hlen₂ : (m.take (n + 1)).length = n + 1 := by
    rw [List.length_take]
    have := lt_length_of_getElem? hn'
    omega
  rw [List.prefix_iff_eq_take.mp h₁, List.prefix_iff_eq_take.mp h₂, hlen₁, hlen₂]

/-- Two nodes cannot both win one term. -/
theorem Inv.owner_unique (hi : Inv members s) {t : ℕ} {i c : ι} (ho : s.owner t = some i)
    {q : Finset ι} (hq : IsQuorum members q) (hv : ∀ j ∈ q, s.vote j t = some c) : i = c := by
  obtain ⟨r, hr, hrj⟩ := hi.elected t i ho
  obtain ⟨j, hjq, hjr⟩ := hq.inter hr
  exact Option.some_inj.mp ((hrj j hjr).symm.trans (hv j hjq))

/-! ### The moves keep the invariant -/

section moves

variable [DecidableEq ι]

theorem Inv.advance (hi : Inv members s) {i : ι} {t : ℕ} (h : s.term i ≤ t) :
    Inv members (s.advance i t) := by
  have hx := State.ext_advance h
  have hbar : ∀ {u n}, s.Barred members u n → (s.advance i t).Barred members u n :=
    fun hb => hb.ext hx
  exact {
    wf_log := hi.wf_log
    wf_ledger := hi.wf_ledger
    log_le := fun j e he => (hi.log_le j e he).trans (hx.term_le j)
    ledger_le := hi.ledger_le
    unowned := hi.unowned
    acked_le := hi.acked_le
    acked_term := fun j u hu => (hi.acked_term j u hu).trans (hx.term_le j)
    vote_term := fun j u c hc => (hi.vote_term j u c hc).trans (hx.term_le j)
    elected := hi.elected
    kept := fun j u n hn ho => (hi.kept j u n hn ho).imp id hbar
    safe := fun u hu v hv n ho => (hi.safe u hu v hv n ho).imp id hbar }

theorem Inv.cast (hi : Inv members s) {j c : ι} (h : s.vote j (s.term j) = none) :
    Inv members (s.cast j c) := by
  have hx := State.ext_cast (c := c) h
  exact {
    wf_log := hi.wf_log
    wf_ledger := hi.wf_ledger
    log_le := hi.log_le
    ledger_le := hi.ledger_le
    unowned := hi.unowned
    acked_le := hi.acked_le
    acked_term := hi.acked_term
    vote_term := fun k t d hd => by
      by_cases hk : k ≠ j ∨ t ≠ s.term j
      · rw [State.cast_vote_ne hk] at hd
        exact hi.vote_term k t d hd
      · push Not at hk
        exact hk.1 ▸ hk.2.le
    elected := fun t i ho => by
      obtain ⟨q, hq, hqj⟩ := hi.elected t i ho
      exact ⟨q, hq, fun k hk => hx.vote k t i (hqj k hk)⟩
    kept := hi.kept
    safe := hi.safe }

section elect

variable {i : ι} {t : ℕ}

/-- A node with the votes of a majority, each from a node whose acknowledgements
its log carries, may win a term that has no owner. -/
theorem Inv.elect (hi : Inv members s) (hpos : 0 < t) (ht : s.term i = t) (hown : s.owner t = none)
    {q : Finset ι} (hq : IsQuorum members q)
    (hv : ∀ j ∈ q, s.vote j t = some i ∧ s.Carries members j (s.log i) t) :
    Ext s (s.elect i t) ∧ Inv members (s.elect i t) := by
  have hled := hi.unowned t hpos hown
  have hack : ∀ j, s.acked j t = 0 := fun j => by
    have := hi.acked_le j t
    rw [hled] at this
    exact Nat.le_zero.mp this
  have hx : Ext s (s.elect i t) := State.ext_elect hled (hack i) ht hown
  -- no entry of the new ledger was created in term `t`
  have hold : ∀ e ∈ s.log i, termOf e ≠ t := by
    rintro e he rfl
    exact hi.owner_of_mem (hi.wf_log i) he hpos hown
  have hown_t : ∀ n, ¬ (s.elect i t).Own t n := by
    rintro n ⟨e, he, hte⟩
    rw [State.elect_ledger_self] at he
    exact hold e (List.mem_of_getElem? he) hte
  have hown_of : ∀ {u n}, (s.elect i t).Own u n → s.Own u n := by
    intro u n ho
    have hu : u ≠ t := by
      rintro rfl
      exact hown_t n ho
    obtain ⟨e, he, hte⟩ := ho
    rw [State.elect_ledger_ne hu] at he
    exact ⟨e, he, hte⟩
  refine ⟨hx, ?_⟩
  exact {
    wf_log := fun j => (hi.wf_log j).ext hx
    wf_ledger := fun u => by
      by_cases hu : u = t
      · subst hu
        rw [State.elect_ledger_self]
        exact (hi.wf_log i).ext hx
      · rw [State.elect_ledger_ne hu]
        exact (hi.wf_ledger u).ext hx
    log_le := hi.log_le
    ledger_le := fun u e he => by
      by_cases hu : u = t
      · subst hu
        rw [State.elect_ledger_self] at he
        exact ht ▸ hi.log_le i e he
      · rw [State.elect_ledger_ne hu] at he
        exact hi.ledger_le u e he
    unowned := fun u hu ho => by
      have hut : u ≠ t := by
        rintro rfl
        exact absurd ho (by simp [State.elect])
      rw [State.elect_ledger_ne hut]
      exact hi.unowned u hu (by simpa [State.elect, hut] using ho)
    acked_le := fun j u => by
      by_cases hj : j ≠ i ∨ u ≠ t
      · rw [State.elect_acked_ne hj]
        exact (hi.acked_le j u).trans (hx.ledger u).length_le
      · push Not at hj
        obtain ⟨rfl, rfl⟩ := hj
        simp
    acked_term := fun j u hu => by
      by_cases hj : j ≠ i ∨ u ≠ t
      · rw [State.elect_acked_ne hj] at hu
        exact hi.acked_term j u hu
      · push Not at hj
        obtain ⟨rfl, rfl⟩ := hj
        exact ht.ge
    vote_term := hi.vote_term
    elected := fun u c hc => by
      by_cases hu : u = t
      · subst hu
        obtain rfl : i = c := by simpa [State.elect] using hc
        exact ⟨q, hq, fun j hj => (hv j hj).1⟩
      · exact hi.elected u c (by simpa [State.elect, hu] using hc)
    kept := fun j u n hn ho => by
      have hos := hown_of ho
      have hu : u ≠ t := by
        rintro rfl
        exact hown_t n ho
      rw [State.elect_acked_ne (.inr hu)] at hn
      exact (hi.kept j u n hn hos).imp (fun h => h.ext hx hos.lt_length) fun h => h.ext hx
    safe := fun u hu v hv' n ho => by
      have hos := hown_of ho
      by_cases hut : u = t
      · -- the new ledger: if some voter acknowledged the position it is carried over,
        -- and if none did the voters themselves bar it
        subst hut
        rw [State.elect_ledger_self]
        by_cases hex : ∃ j ∈ q, n < s.acked j v
        · obtain ⟨j, hj, hn⟩ := hex
          exact ((hv j hj).2 v hv' n hn hos).imp (fun h => h.ext hx hos.lt_length)
            fun h => h.ext hx
        · push Not at hex
          refine .inr (Barred.ext ⟨q, hq, fun j hj => ⟨?_, hex j hj⟩⟩ hx)
          exact hv'.trans_le (hi.vote_term j u i (hv j hj).1)
      · rw [State.elect_ledger_ne hut]
        have hu' : s.owner u ≠ none := by simpa [State.elect, hut] using hu
        exact (hi.safe u hu' v hv' n hos).imp (fun h => h.ext hx hos.lt_length) fun h => h.ext hx }

end elect

section append

variable {i : ι} {t : ℕ} {e : E}

theorem Inv.ext_append (hi : Inv members s) (ht : s.term i = t) : Ext s (s.append i t e) where
  term_le _ := le_rfl
  ledger u := by
    by_cases hu : u = t
    · subst hu
      rw [State.append_ledger_self]
      exact List.prefix_append _ _
    · rw [State.append_ledger_ne hu]
  acked_le j u := by
    by_cases hj : j ≠ i ∨ u ≠ t
    · rw [State.append_acked_ne hj]
    · push Not at hj
      obtain ⟨rfl, rfl⟩ := hj
      rw [State.append_acked_self]
      exact (hi.acked_le j u).trans (Nat.le_succ _)
  acked_eq j u hu := State.append_acked_ne (by
    by_contra hne
    push Not at hne
    obtain ⟨rfl, rfl⟩ := hne
    omega)
  vote _ _ _ h := h
  owner _ _ h := h

/-- A list that is well formed stays so when an entry of term `t` completes it to ledger `t`. -/
theorem State.WellFormed.concat (h : s.WellFormed (s.ledger t)) (hx : Ext s (s.append i t e))
    (he : termOf e = t) : (s.append i t e).WellFormed (s.ledger t ++ [e]) := by
  intro n f hf
  rcases lt_or_ge n (s.ledger t).length with hn | hn
  · rw [List.getElem?_append_left hn] at hf
    rw [List.take_append_of_le_length hn]
    exact (h n f hf).trans (hx.ledger _)
  · have hn' := lt_length_of_getElem? hf
    rw [List.length_append, List.length_singleton] at hn'
    obtain rfl : n = (s.ledger t).length := by omega
    rw [List.getElem?_concat_length, Option.some_inj] at hf
    subst hf
    rw [he, State.append_ledger_self, List.take_of_length_le (by simp)]

/-- Only the owner of a term writes its ledger, while it is in that term and its log is it. -/
theorem Inv.append (hi : Inv members s) (ht : s.term i = t) (hown : s.owner t = some i)
    (hlog : s.log i = s.ledger t) (he : termOf e = t) :
    Ext s (s.append i t e) ∧ Inv members (s.append i t e) := by
  have hx := hi.ext_append (e := e) ht
  have hwf := (hi.wf_ledger t).concat hx he
  have hlogx : ∀ j, s.log j <+: (s.append i t e).log j := fun j => by
    by_cases hj : j = i
    · subst hj
      rw [State.append_log_self, hlog]
      exact List.prefix_append _ _
    · rw [State.append_log_ne hj]
  -- the new position is owned by `t`; every other owned position was there before
  have hcase : ∀ {u n}, (s.append i t e).Own u n → s.Own u n ∨ u = t ∧ n = (s.ledger t).length := by
    intro u n ho
    by_cases hn : n < (s.ledger u).length
    · exact .inl (ho.of_ext hx hn)
    · have hlen := ho.lt_length
      by_cases hu : u = t
      · subst hu
        rw [State.append_ledger_self, List.length_append, List.length_singleton] at hlen
        exact .inr ⟨rfl, by omega⟩
      · rw [State.append_ledger_ne hu] at hlen
        exact absurd hlen hn
  refine ⟨hx, ?_⟩
  exact {
    wf_log := fun j => by
      by_cases hj : j = i
      · subst hj
        rw [State.append_log_self]
        exact hwf
      · rw [State.append_log_ne hj]
        exact (hi.wf_log j).ext hx
    wf_ledger := fun u => by
      by_cases hu : u = t
      · subst hu
        rw [State.append_ledger_self]
        exact hwf
      · rw [State.append_ledger_ne hu]
        exact (hi.wf_ledger u).ext hx
    log_le := fun j f hf => by
      by_cases hj : j = i
      · subst hj
        rw [State.append_log_self, ← hlog, List.mem_append, List.mem_singleton] at hf
        rcases hf with hf | rfl
        · exact hi.log_le j f hf
        · exact (he.trans ht.symm).le
      · rw [State.append_log_ne hj] at hf
        exact hi.log_le j f hf
    ledger_le := fun u f hf => by
      by_cases hu : u = t
      · subst hu
        rw [State.append_ledger_self, List.mem_append, List.mem_singleton] at hf
        rcases hf with hf | rfl
        · exact hi.ledger_le u f hf
        · exact he.le
      · rw [State.append_ledger_ne hu] at hf
        exact hi.ledger_le u f hf
    unowned := fun u hu ho => by
      have hut : u ≠ t := by
        rintro rfl
        exact absurd (hown.symm.trans ho) (by simp)
      rw [State.append_ledger_ne hut]
      exact hi.unowned u hu ho
    acked_le := fun j u => by
      by_cases hj : j ≠ i ∨ u ≠ t
      · rw [State.append_acked_ne hj]
        exact (hi.acked_le j u).trans (hx.ledger u).length_le
      · push Not at hj
        obtain ⟨rfl, rfl⟩ := hj
        simp
    acked_term := fun j u hu => by
      by_cases hj : j ≠ i ∨ u ≠ t
      · rw [State.append_acked_ne hj] at hu
        exact hi.acked_term j u hu
      · push Not at hj
        obtain ⟨rfl, rfl⟩ := hj
        exact ht.ge
    vote_term := hi.vote_term
    elected := hi.elected
    kept := fun j u n hn ho => by
      by_cases hj : j ≠ i ∨ u ≠ t
      · rw [State.append_acked_ne hj] at hn
        have hlen := hn.trans_le (hi.acked_le j u)
        exact (hi.kept j u n hn (ho.of_ext hx hlen)).imp
          (fun h => (h.ext hx hlen).mono (hlogx j)) fun h => h.ext hx
      · push Not at hj
        obtain ⟨rfl, rfl⟩ := hj
        refine .inl ?_
        unfold State.Holds
        rw [State.append_log_self, State.append_ledger_self]
        exact List.take_prefix _ _
    safe := fun u hu v hv n ho => by
      rcases hcase ho with hos | ⟨rfl, rfl⟩
      · rcases hi.safe u hu v hv n hos with h | h
        · exact .inl ((h.ext hx hos.lt_length).mono (hx.ledger u))
        · exact .inr (h.ext hx)
      · -- a later term has an owner, so a majority left `v` before this entry existed
        obtain ⟨c, hc⟩ := Option.ne_none_iff_exists'.mp hu
        obtain ⟨q, hq, hqj⟩ := hi.elected u c hc
        refine .inr ⟨q, hq, fun j hj => ?_⟩
        have hjt := hi.vote_term j u c (hqj j hj)
        have hji : j ≠ i := by
          rintro rfl
          omega
        rw [State.append_acked_ne (.inl hji)]
        exact ⟨hv.trans_le hjt, hi.acked_le j v⟩ }

end append

section accept

variable {i : ι} {t k : ℕ} {l : List E}

theorem Inv.accept (hi : Inv members s) (ht : s.term i = t) (hk : k ≤ (s.ledger t).length)
    (hown : s.owner t ≠ none) (hnew : (s.ledger t).take k <+: l)
    (hmerge : l = s.log i ∨ l = (s.ledger t).take k ∧ ¬ (s.ledger t).take k <+: s.log i) :
    Ext s (s.accept i t k l) ∧ Inv members (s.accept i t k l) := by
  have hx := State.ext_accept (k := k) (l := l) ht
  refine ⟨hx, ?_⟩
  exact {
    wf_log := fun j => by
      by_cases hj : j = i
      · subst hj
        rw [State.accept_log_self]
        rcases hmerge with rfl | ⟨rfl, -⟩
        · exact (hi.wf_log j).ext hx
        · exact ((hi.wf_ledger t).of_isPrefix (List.take_prefix _ _)).ext hx
      · rw [State.accept_log_ne hj]
        exact (hi.wf_log j).ext hx
    wf_ledger := fun u => (hi.wf_ledger u).ext hx
    log_le := fun j f hf => by
      by_cases hj : j = i
      · subst hj
        rw [State.accept_log_self] at hf
        rcases hmerge with rfl | ⟨rfl, -⟩
        · exact hi.log_le j f hf
        · exact (hi.ledger_le t f (List.mem_of_mem_take hf)).trans ht.ge
      · rw [State.accept_log_ne hj] at hf
        exact hi.log_le j f hf
    ledger_le := hi.ledger_le
    unowned := hi.unowned
    acked_le := fun j u => by
      by_cases hj : j ≠ i ∨ u ≠ t
      · rw [State.accept_acked_ne hj]
        exact hi.acked_le j u
      · push Not at hj
        obtain ⟨rfl, rfl⟩ := hj
        rw [State.accept_acked_self]
        exact max_le (hi.acked_le j u) hk
    acked_term := fun j u hu => by
      by_cases hj : j ≠ i ∨ u ≠ t
      · rw [State.accept_acked_ne hj] at hu
        exact hi.acked_term j u hu
      · push Not at hj
        obtain ⟨rfl, rfl⟩ := hj
        exact ht.ge
    vote_term := hi.vote_term
    elected := hi.elected
    safe := fun u hu v hv n ho =>
      (hi.safe u hu v hv n ho).imp id fun h => h.ext hx
    kept := fun j u n hn ho => by
      by_cases hj : j = i
      · subst hj
        rw [State.accept_log_self]
        rcases lt_trichotomy u t with hu | rfl | hu
        · -- an earlier term: both the log and the ledger hold the position
          rw [State.accept_acked_ne (.inr hu.ne)] at hn
          rcases hi.kept j u n hn ho with h | h
          · rcases hi.safe t hown u hu n ho with h' | h'
            · exact .inl (isPrefix_of_merge hnew hmerge h h')
            · exact .inr (h'.ext hx)
          · exact .inr (h.ext hx)
        · rw [State.accept_acked_self, lt_max_iff] at hn
          rcases hn with hn | hn
          · rcases hi.kept j u n hn ho with h | h
            · exact .inl (isPrefix_of_merge hnew hmerge h (List.take_prefix _ _))
            · exact .inr (h.ext hx)
          · refine .inl (List.IsPrefix.trans ?_ hnew)
            exact List.take_prefix_take_left (by omega)
        · rw [State.accept_acked_ne (.inr hu.ne')] at hn
          have := hi.acked_term j u (Nat.zero_lt_of_lt hn)
          omega
      · rw [State.accept_acked_ne (.inl hj)] at hn
        rw [State.accept_log_ne hj]
        exact (hi.kept j u n hn ho).imp id fun h => h.ext hx }

end accept

end moves

/-! ### Voting by comparing last entries -/

/-- **The vote rule is enough.**  If the last entry of the well-formed log `l`
is at least as new as the last entry of the log of `j` (its term is larger, or
equal with `l` at least as long), then `l` carries all that `j` acknowledged. -/
theorem Inv.carries_of_upToDate (hi : Inv members s) {j : ι} {l : List E} (hl : s.WellFormed l)
    {e f : E} (he : l.getLast? = some e) (hf : (s.log j).getLast? = some f)
    (h : termOf f < termOf e ∨ termOf f = termOf e ∧ (s.log j).length ≤ l.length) (t : ℕ) :
    s.Carries members j l t := by
  intro u _ n hn ho
  rcases hi.kept j u n hn ho with hheld | hbar
  swap
  · exact .inr hbar
  rw [List.getLast?_eq_getElem?] at he hf
  obtain ⟨d, hd, hdu⟩ := ho
  have hdj : (s.log j)[n]? = some d := getElem?_of_take_isPrefix hheld (Nat.lt_succ_self n) hd
  have hnl := lt_length_of_getElem? hdj
  have hd_le : u ≤ termOf f := hdu ▸ hi.sorted (hi.wf_log j) (by omega) hdj hf
  have hjl : s.log j <+: s.ledger (termOf f) := by
    have := hi.wf_log j _ f hf
    rwa [List.take_of_length_le (by omega)] at this
  have hll : l <+: s.ledger (termOf e) := by
    have := hl _ e he
    rwa [List.take_of_length_le (by omega)] at this
  rcases h with hlt | ⟨heq, hlen⟩
  · -- a strictly newer term: its ledger contains the position, and before `e`
    have hpos : 0 < termOf e := by omega
    have hown := hi.owner_of_mem hl (List.mem_of_getElem? he) hpos
    rcases hi.safe _ hown u (by omega) n ⟨d, hd, hdu⟩ with h' | h'
    swap
    · exact .inr h'
    have hde : (s.ledger (termOf e))[n]? = some d :=
      getElem?_of_take_isPrefix h' (Nat.lt_succ_self n) hd
    have hnlen : n < l.length := by
      by_contra hge
      have hle := hi.sorted (hi.wf_ledger _) (by omega) (getElem?_of_isPrefix hll he) hde
      omega
    refine .inl (List.prefix_of_prefix_length_le h' hll ?_)
    rw [List.length_take]
    omega
  · -- the same term: both logs are prefixes of one ledger
    rw [heq] at hjl
    exact .inl (List.IsPrefix.trans hheld (List.prefix_of_prefix_length_le hjl hll hlen))

/-- A node carries its own acknowledgements. -/
theorem Inv.carries_self (hi : Inv members s) (i : ι) (t : ℕ) :
    s.Carries members i (s.log i) t :=
  fun u _ n hn ho => hi.kept i u n hn ho

/-! ### What is chosen -/

namespace State.Chosen

variable {t n : ℕ}

/-- **Completeness.**  A chosen position is in every later ledger. -/
theorem holds_ledger (h : s.Chosen members t n) (hi : Inv members s) {u : ℕ} (htu : t < u)
    (hown : s.owner u ≠ none) : s.Holds (s.ledger u) t n :=
  (hi.safe u hown t htu n h.1).resolve_right h.not_barred

/-- **Persistence.**  Whoever acknowledged a chosen position still has it. -/
theorem holds_log (h : s.Chosen members t n) (hi : Inv members s) {i : ι}
    (hack : n < s.acked i t) : s.Holds (s.log i) t n :=
  (hi.kept i t n hack h.1).resolve_right h.not_barred

theorem owner_ne_none (h : s.Chosen members t n) (hi : Inv members s) (ht : 0 < t) :
    s.owner t ≠ none := by
  obtain ⟨⟨e, he, hte⟩, -⟩ := h
  have := hi.owner_of_mem (hi.wf_ledger t) (List.mem_of_getElem? he) (by omega)
  rwa [hte] at this

/-- **Agreement.**  Chosen prefixes are prefixes of one another. -/
theorem comparable (h : s.Chosen members t n) (hi : Inv members s) {u m : ℕ}
    (h' : s.Chosen members u m) :
    (s.ledger t).take (n + 1) <+: (s.ledger u).take (m + 1) ∨
      (s.ledger u).take (m + 1) <+: (s.ledger t).take (n + 1) := by
  have key : ∀ {t n u m : ℕ}, s.Chosen members t n → s.Chosen members u m → t < u →
      (s.ledger t).take (n + 1) <+: (s.ledger u).take (m + 1) ∨
        (s.ledger u).take (m + 1) <+: (s.ledger t).take (n + 1) := by
    intro t n u m h h' htu
    have hown := h'.owner_ne_none hi (by omega)
    exact List.prefix_or_prefix_of_prefix (h.holds_ledger hi htu hown) (List.take_prefix _ _)
  rcases lt_trichotomy t u with hlt | rfl | hlt
  · exact key h h' hlt
  · exact List.prefix_or_prefix_of_prefix (List.take_prefix _ _) (List.take_prefix _ _)
  · exact (key h' h hlt).symm

end State.Chosen

end Ledger
