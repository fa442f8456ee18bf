/-
What the methods of a Raft node do, one lemma per method.

* `Matches` — what two logs have in common when their terms agree somewhere;
* `mergeEntries_spec` — the loop of `handle_append_entries` leaves the log alone
  or replaces it by the leader's prefix, and the latter only on a conflict;
* `advanceLoop_spec` — `_advance_commit_index` moves to an entry of the current
  term that enough peers have;
* `applyLoop_spec` — `_applier` hands over the next entries, in order;
* `Drift` — what any method does to a campaign: it is given up for good, or the
  log stays as it was.
-/
import Dssd.RaftNode
import Dssd.Ledger

open Function (update)

namespace Raft

variable {Cmd : Type}

instance : Ledger.Termed (LogEntry Cmd) := ⟨LogEntry.term⟩

@[simp] theorem termOf_eq (e : LogEntry Cmd) : Ledger.termOf e = e.term := rfl

/-! ### Logs that match -/

/-- Two logs with entries of the same term at some index agree up to there. -/
def Matches (l m : List (LogEntry Cmd)) : Prop :=
  ∀ (n : ℕ) (e f : LogEntry Cmd), l[n]? = some e → m[n]? = some f → e.term = f.term →
    ∀ k ≤ n, l[k]? = m[k]?

theorem matches_of_wellFormed {g : Ledger.State String (LogEntry Cmd)} {l m : List (LogEntry Cmd)}
    (hl : g.WellFormed l) (hm : g.WellFormed m) : Matches l m := by
  intro n e f hn hn' hef k hk
  have htake := hl.matching hm hn hn' hef
  rw [← List.getElem?_take_of_lt (Nat.lt_succ_of_le hk), htake,
    List.getElem?_take_of_lt (Nat.lt_succ_of_le hk)]

/-- A log matches its prefixes. -/
theorem matches_of_isPrefix {l m : List (LogEntry Cmd)} (h : m <+: l) : Matches l m := by
  intro n e f _ hf _ k hk
  have hlt := Ledger.lt_length_of_getElem? hf
  have hk' : m[k]? = some m[k] := List.getElem?_eq_getElem (by omega)
  rw [hk', Ledger.getElem?_of_isPrefix h hk']

theorem Matches.take_eq {l m : List (LogEntry Cmd)} (h : Matches l m) {n : ℕ} {e f : LogEntry Cmd}
    (hn : l[n]? = some e) (hn' : m[n]? = some f) (hef : e.term = f.term) :
    l.take (n + 1) = m.take (n + 1) := by
  refine List.ext_getElem? fun k => ?_
  rw [List.getElem?_take, List.getElem?_take]
  split
  · exact h n e f hn hn' hef k (by omega)
  · rfl

namespace Node

/-! ### Appending entries -/

/-- The loop from position `index` on, the log and the leader's log `led` agreeing
before it. -/
theorem mergeEntries_spec {log led : List (LogEntry Cmd)} (hm : Matches log led) :
    ∀ {entries : List (LogEntry Cmd)} {index : ℕ},
      entries = (led.drop index).take entries.length → index + entries.length ≤ led.length →
      index ≤ log.length → log.take index = led.take index →
      led.take (index + entries.length) <+: mergeEntries log index entries ∧
        (mergeEntries log index entries = log ∨
          mergeEntries log index entries = led.take (index + entries.length) ∧
            ¬ led.take (index + entries.length) <+: log) := by
  intro entries
  induction entries with
  | nil =>
    intro index _ _ _ hagree
    rw [mergeEntries, List.length_nil, Nat.add_zero, ← hagree]
    exact ⟨List.take_prefix _ _, .inl rfl⟩
  | cons e rest ih =>
    intro index hent hfit hlen hagree
    rw [List.length_cons] at hent hfit
    have hcons : led.drop index = led[index] :: led.drop (index + 1) :=
      List.drop_eq_getElem_cons (by omega)
    rw [hcons, List.take_succ_cons, List.cons.injEq] at hent
    obtain ⟨he, hrest⟩ := hent
    have hget : led[index]? = some e := by
      rw [he]
      exact List.getElem?_eq_getElem (by omega)
    rw [List.length_cons, ← Nat.add_assoc, Nat.add_right_comm]
    rw [mergeEntries]
    split
    · -- the position is there already
      rename_i hsame
      obtain ⟨f, hf, hft⟩ := Option.map_eq_some_iff.mp hsame
      have hstep := hm.take_eq hf hget hft
      have hlt := Ledger.lt_length_of_getElem? hf
      exact ih hrest (by omega) hlt hstep
    · -- the first difference: the leader's entries replace the rest
      rename_i hdiff
      have hnew : log.take index ++ e :: rest = led.take (index + 1 + rest.length) := by
        rw [hagree, hrest, he, ← List.take_succ_cons, ← hcons, Nat.add_assoc,
          Nat.add_comm 1, List.length_take, List.length_drop, ← List.take_add]
        congr 2
        omega
      refine ⟨hnew ▸ List.prefix_rfl, .inr ⟨hnew, fun hpre => hdiff ?_⟩⟩
      rw [Ledger.getElem?_of_take_isPrefix hpre (by omega) hget]
      rfl

/-! ### Committing -/

theorem replicas_spec {r : Node Cmd} {n : ℕ} : ∀ {ps : List String} {c : ℕ},
    r.replicas n ps = .ok c →
      c = (ps.filter fun p => (r.matchIndex p).any (n ≤ ·)).length := by
  intro ps
  induction ps with
  | nil =>
    intro c h
    simpa [replicas] using h.symm
  | cons p ps ih =>
    intro c h
    rw [replicas] at h
    split at h
    · rename_i m c' hm hc'
      have hcount := ih hc'
      cases h
      rw [List.filter_cons, hm, Option.any_some]
      by_cases hmn : n ≤ m
      · rw [if_pos hmn, if_pos (decide_eq_true hmn), List.length_cons, ← hcount]
      · rw [if_neg hmn, if_neg (by simpa using hmn), ← hcount]
    · cases h
    · cases h

theorem replicas_ok {r : Node Cmd} (n : ℕ) : ∀ {ps : List String},
    (∀ p ∈ ps, ∃ m, r.matchIndex p = some m) → ∃ c, r.replicas n ps = .ok c := by
  intro ps
  induction ps with
  | nil => exact fun _ => ⟨0, rfl⟩
  | cons p ps ih =>
    intro h
    obtain ⟨m, hm⟩ := h p (by simp)
    obtain ⟨c, hc⟩ := ih fun q hq => h q (by simp [hq])
    exact ⟨if m ≥ n then c + 1 else c, by simp [replicas, hm, hc]⟩

/-- `_advance_commit_index` moves up to an entry of the current term that, with
the node itself, a majority has; or leaves the node as it was. -/
theorem advanceLoop_spec {r r' : Node Cmd} : ∀ {n : ℕ}, r.advanceLoop n = .ok r' →
    r' = r ∨ ∃ k c e, r' = { r with commitIndex := k } ∧ r.commitIndex < k ∧
      r.log[k]? = some e ∧ e.term = r.currentTerm ∧ r.replicas k r.cfg.peers = .ok c ∧
      r.majority ≤ 1 + c := by
  intro n
  induction n with
  | zero =>
    intro h
    cases h
    exact .inl rfl
  | succ n ih =>
    intro h
    rw [advanceLoop] at h
    split at h
    · cases h
      exact .inl rfl
    rename_i hlt
    split at h
    · cases h
    rename_i e he
    split at h
    · exact ih h
    rename_i hterm
    split at h
    · cases h
    rename_i c hc
    split at h
    · rename_i hmaj
      cases h
      exact .inr ⟨n + 1, c, e, rfl, by omega, he, not_not.mp hterm, hc, hmaj⟩
    · exact ih h

/-- The loop raises nothing when every peer has a `match_index`. -/
theorem advanceLoop_ok {r : Node Cmd} (hm : ∀ p ∈ r.cfg.peers, ∃ m, r.matchIndex p = some m) :
    ∀ {n : ℕ}, n < r.log.length → ∃ r', r.advanceLoop n = .ok r' := by
  intro n
  induction n with
  | zero => exact fun _ => ⟨r, rfl⟩
  | succ n ih =>
    intro hn
    rw [advanceLoop, List.getElem?_eq_getElem hn]
    obtain ⟨c, hc⟩ := replicas_ok (n + 1) hm
    simp only [hc]
    split
    · exact ⟨_, rfl⟩
    · split
      · exact ih (by omega)
      · split
        · exact ⟨_, rfl⟩
        · exact ih (by omega)

/-! ### Applying -/

/-- As long as it stays inside the log, `_applier` hands over the next `n` entries. -/
theorem applyLoop_spec {log : List (LogEntry Cmd)} : ∀ {n k : ℕ}, k + n < log.length →
    applyLoop log k n = (k + n, (log.drop (k + 1)).take n, .ok ()) := by
  intro n
  induction n with
  | zero => simp [applyLoop]
  | succ n ih =>
    intro k h
    have hk : k + 1 < log.length := by omega
    rw [applyLoop, List.getElem?_eq_getElem hk, List.drop_eq_getElem_cons hk]
    simp only [ih (k := k + 1) (by omega), List.take_succ_cons]
    congr 1
    omega

/-! ### Terms -/

/-- A handler runs in a term no older than the request's. -/
theorem le_observe (r : Node Cmd) (t : ℕ) : t ≤ (r.observe t).currentTerm := by
  unfold observe
  split
  · exact le_rfl
  · omega

/-! ### Campaigns -/

/-- The node's term does not go back, and if it is a candidate afterwards then it
has started a new campaign or is still in the old one, with the same log. -/
def Drift (r r' : Node Cmd) : Prop :=
  r.currentTerm ≤ r'.currentTerm ∧
    (r'.role = .candidate → r.currentTerm < r'.currentTerm ∨
      r.role = .candidate ∧ r'.currentTerm = r.currentTerm ∧ r'.log = r.log)

theorem Drift.of_not_candidate {r r' : Node Cmd} (h : r.currentTerm ≤ r'.currentTerm)
    (hr : r'.role ≠ .candidate) : Drift r r' :=
  ⟨h, fun hc => absurd hc hr⟩

theorem Drift.of_eq {r r' : Node Cmd} (ht : r'.currentTerm = r.currentTerm)
    (hr : r'.role = r.role) (hl : r'.log = r.log) : Drift r r' :=
  ⟨ht.ge, fun hc => .inr ⟨hr ▸ hc, ht, hl⟩⟩

end Node

end Raft
