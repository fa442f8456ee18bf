/-
A Raft cluster is a book.

What the cluster does is told by `Book` (`Book.lean`): `propose` writes a command under the
ticket it returns, the commit index chooses tickets, and the appliers read them.

* `Cluster.committed` — the log up to the highest commit index;
* `Ghost.book` — the book of a cluster with a history: the ledgers have what was written;
  `Sim.book_steps` — every step of the cluster is a run of its book;
* **`cluster_refines_book`** — the cluster refines the book: the logs have what is written
  there, and the members apply what they are given there;
* **`ticket_fate`** — so a ticket names one command for ever, which is applied by all or by
  none, after everything that had been applied when it was proposed.
-/
import Dssd.Book
import Dssd.RaftRange
import Mathlib.Data.List.MinMax

open Function (update)
open Ledger.State (Ext)

namespace Raft

variable {Cmd : Type} [Inhabited Cmd] {M : Membership} {g g' : Ghost Cmd} {w w' : Cluster Cmd}
  {e : Event Cmd}

/-! ### The committed log -/

/-- What the member that knows most takes for committed. -/
def Cluster.committed (M : Membership) (w : Cluster Cmd) : List (LogEntry Cmd) :=
  match M.ids.argmax fun i => (w.node i).commitIndex with
  | some i => (w.node i).log.take ((w.node i).commitIndex + 1)
  | none => []

omit [Inhabited Cmd] in
/-- It is the committed part of some node's log. -/
theorem Cluster.exists_committed (M : Membership) (w : Cluster Cmd) : w.committed M = [] ∨
    ∃ i, w.committed M = (w.node i).log.take ((w.node i).commitIndex + 1) := by
  unfold Cluster.committed
  split
  · exact .inr ⟨_, rfl⟩
  · exact .inl rfl

theorem Sim.length_committed (h : Sim M g w) (i : String) :
    ((w.node i).log.take ((w.node i).commitIndex + 1)).length = (w.node i).commitIndex + 1 := by
  have := h.commit_lt i
  rw [List.length_take]
  omega

/-- The committed part of a member's log is a part of it, now and later. -/
theorem Sim.isPrefix_committed (h : Sim M g w) (hs : Steps M w w') {i : String} (hi : i ∈ M.ids) :
    (w.node i).log.take ((w.node i).commitIndex + 1) <+: w'.committed M := by
  obtain ⟨g', hx, h'⟩ := h.steps hs
  unfold Cluster.committed
  split
  · rename_i j hj
    have hle : (w'.node i).commitIndex ≤ (w'.node j).commitIndex :=
      List.le_of_mem_argmax (f := fun i => (w'.node i).commitIndex) hi hj
    have hmono := (h.forward_steps hs i).1
    have hc := (h.node i).commit.ext hx le_rfl
    rcases hc.comparable (h'.node j).commit h'.inv (h.node i).base (h'.node j).base with hp | hp
    · exact hp
    · have heq := hp.eq_of_length_le (by
        rw [h.length_committed, h'.length_committed]
        omega)
      exact heq ▸ List.prefix_rfl
  · rename_i hnone
    rw [List.argmax_eq_none.mp hnone] at hi
    exact absurd hi (by simp)

/-- The committed log only grows. -/
theorem Sim.committed_isPrefix (h : Sim M g w) (hs : Steps M w w') :
    w.committed M <+: w'.committed M := by
  unfold Cluster.committed
  split
  · rename_i i hi
    exact h.isPrefix_committed hs (List.argmax_mem hi)
  · exact List.nil_prefix

theorem Sim.committed_getElem? (h : Sim M g w) {n : ℕ} {f : LogEntry Cmd}
    (hf : (w.committed M)[n]? = some f) : f.index = n ∧ (g.ledger f.term)[n]? = some f := by
  rcases w.exists_committed M with hnil | ⟨i, hi⟩
  · rw [hnil] at hf
    cases hf
  rw [hi] at hf
  have hlog := Ledger.getElem?_of_isPrefix (List.take_prefix _ _) hf
  exact ⟨h.index_eq hlog, Ledger.getElem?_of_take_isPrefix (h.wellFormed i n f hlog)
    (Nat.lt_succ_self n) hlog⟩

/-! ### Tickets -/

/-- What `propose` returns for the entry. -/
def LogEntry.ticket (f : LogEntry Cmd) : ℕ × ℕ := (f.index, f.term)

/-- The members read. -/
abbrev Membership.Reader (M : Membership) : Type := { i // i ∈ M.ids }

/-- What was written in term `t` is in ledger `t`, with entries of earlier terms before it. -/
def Ghost.written (g : Ghost Cmd) (k : ℕ × ℕ) : Option Cmd :=
  if k.1 = 0 then none
  else ((g.ledger k.2)[k.1]?).bind fun f => if f.term = k.2 then some f.command else none

/-- The book of a cluster with history `g`. -/
def Ghost.book (M : Membership) (g : Ghost Cmd) (w : Cluster Cmd) :
    Book M.Reader (ℕ × ℕ) Cmd where
  written := g.written
  chosen := ((w.committed M).drop 1).map LogEntry.ticket
  read i := (w.node i).lastApplied

omit [Inhabited Cmd] in
theorem Ghost.written_eq_some {k : ℕ × ℕ} {c : Cmd} : g.written k = some c ↔
    k.1 ≠ 0 ∧ ∃ f, (g.ledger k.2)[k.1]? = some f ∧ f.term = k.2 ∧ f.command = c := by
  unfold Ghost.written
  split
  · rename_i hzero
    simp [hzero]
  · rename_i hne
    simp [hne, Option.bind_eq_some_iff]

/-- Every entry of a ledger is in the book. -/
theorem Sim.written_of_ledger (h : Sim M g w) {t n : ℕ} {f : LogEntry Cmd} (hn : n ≠ 0)
    (hf : (g.ledger t)[n]? = some f) : g.written f.ticket = some f.command := by
  have hidx := h.indexed t n f hf
  refine Ghost.written_eq_some.mpr ⟨?_, f, ?_, rfl, rfl⟩
  · show f.index ≠ 0
    omega
  · show (g.ledger f.term)[f.index]? = some f
    rw [hidx]
    exact Ledger.getElem?_of_take_isPrefix (h.inv.wf_ledger t n f hf) (Nat.lt_succ_self n) hf

/-- Every entry of a log is in the book. -/
theorem Sim.written_of_mem (h : Sim M g w) {i : String} {f : LogEntry Cmd}
    (hf : f ∈ (w.node i).log.drop 1) : g.written f.ticket = some f.command := by
  obtain ⟨n, hn⟩ := List.mem_iff_getElem?.mp hf
  rw [List.getElem?_drop] at hn
  refine h.written_of_ledger (t := f.term) (n := 1 + n) (by omega) ?_
  exact Ledger.getElem?_of_take_isPrefix (h.wellFormed i _ f hn) (Nat.lt_succ_self _) hn

omit [Inhabited Cmd] in
theorem Ghost.written_mono (hx : Ext g.toState g'.toState) {k : ℕ × ℕ} {c : Cmd}
    (hk : g.written k = some c) : g'.written k = some c := by
  obtain ⟨hne, f, hf, hrest⟩ := Ghost.written_eq_some.mp hk
  exact Ghost.written_eq_some.mpr
    ⟨hne, f, Ledger.getElem?_of_isPrefix (hx.ledger k.2) hf, hrest⟩

/-- A step writes at most the entry that a node has put on top of its log. -/
theorem Sim.written_grows (h : Sim M g w) (hx : Ext g.toState g'.toState) (h' : Sim M g' w')
    (hg : Grows w w' e g g') : g'.written = g.written ∨
      ∃ k c, g.written k = none ∧ g'.written = update g.written k (some c) := by
  rcases hg with hsame | ⟨i, f, hlog, hled, -⟩
  · left
    funext k
    rw [Ghost.written, Ghost.written, hsame]
  have hget : (w'.node i).log[(w.node i).log.length]? = some f := by
    rw [hlog]
    exact List.getElem?_concat_length
  have hidx := h'.index_eq hget
  have hpos : 0 < (w.node i).log.length := List.length_pos_iff.mpr (h.log_ne_nil i)
  have hpre := hx.ledger f.term
  rw [hled, Function.update_self] at hpre
  have hself : g'.written f.ticket = some f.command := h'.written_of_mem (i := i) (by
    rw [hlog, List.drop_append_of_le_length hpos]
    exact List.mem_append_right _ (List.mem_singleton_self f))
  -- all that is new in the ledgers is `f`
  have hother : ∀ k ≠ f.ticket, g'.written k = g.written k := by
    intro k hk
    by_contra hne
    obtain ⟨c, hc⟩ : ∃ c, g'.written k = some c := by
      refine Option.ne_none_iff_exists'.mp fun hnone => hne ?_
      rw [hnone]
      cases hold : g.written k with
      | none => rfl
      | some c => exact absurd ((Ghost.written_mono hx hold).symm.trans hnone) (by simp)
    obtain ⟨hzero, f', hf', hterm, hcmd⟩ := Ghost.written_eq_some.mp hc
    refine hne (hc.trans (Ghost.written_eq_some.mpr ⟨hzero, f', ?_, hterm, hcmd⟩).symm)
    by_cases ht : k.2 = f.term
    swap
    · rwa [hled, Function.update_of_ne ht] at hf'
    rw [hled, ht, Function.update_self] at hf'
    rcases Nat.lt_or_ge k.1 (w.node i).log.length with hlt | hge
    · rw [List.getElem?_append_left hlt] at hf'
      rw [← hterm]
      exact Ledger.getElem?_of_take_isPrefix (h.wellFormed i _ f' hf') (Nat.lt_succ_self _) hf'
    · have hlt := Ledger.lt_length_of_getElem? hf'
      rw [List.length_append, List.length_singleton] at hlt
      have hk₁ : k.1 = (w.node i).log.length := by omega
      exact absurd (Prod.ext (hk₁.trans hidx.symm) ht) hk
  cases hold : g.written f.ticket with
  | none =>
    refine .inr ⟨f.ticket, f.command, hold, ?_⟩
    funext k
    by_cases hk : k = f.ticket
    · rw [hk, hself, Function.update_self]
    · rw [hother k hk, Function.update_of_ne hk]
  | some c =>
    left
    funext k
    by_cases hk : k = f.ticket
    · rw [hk, hold]
      exact Ghost.written_mono hx hold
    · exact hother k hk

/-! ### The simulation -/

theorem Sim.book_chosen (h : Sim M g w) {k : ℕ × ℕ} {n : ℕ}
    (hk : (g.book M w).chosen[n]? = some k) :
    k.1 = n + 1 ∧ ((g.book M w).written k).isSome = true := by
  change ((w.committed M).drop 1 |>.map LogEntry.ticket)[n]? = some k at hk
  rw [List.getElem?_map, List.getElem?_drop, Option.map_eq_some_iff] at hk
  obtain ⟨f, hf, rfl⟩ := hk
  obtain ⟨hidx, hled⟩ := h.committed_getElem? hf
  refine ⟨hidx.trans (Nat.add_comm 1 n), Option.isSome_iff_exists.mpr ⟨f.command, ?_⟩⟩
  refine Ghost.written_eq_some.mpr ⟨?_, f, ?_, rfl, rfl⟩
  · show f.index ≠ 0
    omega
  · show (g.ledger f.term)[f.index]? = some f
    rwa [hidx]

/-- The book is valid: the place of a ticket is its index, and members apply what is committed. -/
theorem Sim.book_valid (h : Sim M g w) : Book.Valid (g.book M w) where
  nodup := by
    refine List.nodup_iff_getElem?_ne_getElem?.mpr fun m n hmn hn heq => ?_
    have hget := List.getElem?_eq_getElem hn
    have h₁ := (h.book_chosen hget).1
    have h₂ := (h.book_chosen (heq.trans hget)).1
    omega
  written k hk := by
    obtain ⟨n, hn⟩ := List.mem_iff_getElem?.mp hk
    exact (h.book_chosen hn).2
  read i := by
    have hle := (h.isPrefix_committed .refl i.2).length_le
    rw [h.length_committed] at hle
    have := (h.node i).lastApplied
    show (w.node i).lastApplied ≤ (((w.committed M).drop 1).map LogEntry.ticket).length
    rw [List.length_map, List.length_drop]
    omega

/-- At most one node applies anything in a step. -/
theorem exists_applies (he : Cluster.step M w e = some w') :
    ∃ n, ∀ i ≠ n, (w'.node i).lastApplied = (w.node i).lastApplied := by
  cases e with
  | applier n =>
    obtain ⟨-, ⟨⟩⟩ := Option.ite_none_right_eq_some.mp he
    refine ⟨n, fun i hi => ?_⟩
    show ((w.set n _).node i).lastApplied = _
    rw [Cluster.set_node_ne _ _ hi]
  | propose n command =>
    obtain ⟨-, ⟨⟩⟩ := Option.ite_none_right_eq_some.mp he
    refine ⟨n, fun i hi => ?_⟩
    rw [Cluster.set_node_ne _ _ hi]
  | _ =>
    refine ⟨"", fun i _ => ?_⟩
    exact (step_internal he rfl (fun n hn => by cases hn) i).1.lastApplied

/-- **Every step of the cluster is a run of its book.** -/
theorem Sim.book_steps (h : Sim M g w) (he : Cluster.step M w e = some w') :
    ∃ g' : Ghost Cmd, Ext g.toState g'.toState ∧ Sim M g' w' ∧
      Book.Steps (g.book M w) (g'.book M w') := by
  obtain ⟨g', hx, hg, h'⟩ := h.step he
  have hstep : Steps M w w' := .single ⟨e, he⟩
  refine ⟨g', hx, h', Book.steps_of_grown h'.book_valid (h.written_grows hx h' hg)
    (((h.committed_isPrefix hstep).drop 1).map LogEntry.ticket) ?_⟩
  -- who reads
  obtain ⟨n, hn⟩ := exists_applies he
  by_cases hin : n ∈ M.ids
  · refine .inr ⟨⟨n, hin⟩, (w'.node n).lastApplied, (h.forward_steps hstep n).2, ?_⟩
    funext i
    by_cases hi : i = ⟨n, hin⟩
    · rw [hi, Function.update_self]
      rfl
    · rw [Function.update_of_ne hi]
      exact hn i fun heq => hi (Subtype.ext heq)
  · exact .inl (funext fun i => hn i fun heq => hin (heq ▸ i.2))

/-- What the book says of the cluster: the logs have what is written in it, what a member has
committed is chosen, and it has applied what it has been given. -/
structure Tells (M : Membership) (b : Book M.Reader (ℕ × ℕ) Cmd) (w : Cluster Cmd) : Prop where
  logs : ∀ i, ∀ f ∈ (w.node i).log.drop 1, b.written f.ticket = some f.command
  commits : ∀ i : M.Reader, (((w.node i).log.take ((w.node i).commitIndex + 1)).drop 1).map
    LogEntry.ticket <+: b.chosen
  applied : ∀ i : M.Reader, (w.applied i).map LogEntry.ticket = b.view i

theorem Sim.tells (h : Sim M g w) : Tells M (g.book M w) w where
  logs _ _ hf := h.written_of_mem hf
  commits i := ((h.isPrefix_committed .refl i.2).drop 1).map LogEntry.ticket
  applied i := by
    have hle := (h.node i).lastApplied
    have hpre := h.isPrefix_committed .refl i.2
    have hlen := h.length_committed i
    show _ = (((w.committed M).drop 1).map LogEntry.ticket).take (w.node i).lastApplied
    have hdrop : ((w.committed M).drop 1).take (w.node i).lastApplied =
        ((w.committed M).take ((w.node i).lastApplied + 1)).drop 1 := by
      rw [List.drop_take, Nat.add_sub_cancel]
    have htake : (w.committed M).take ((w.node i).lastApplied + 1) =
        (w.node i).log.take ((w.node i).lastApplied + 1) := by
      rw [Ledger.take_eq_of_isPrefix hpre (by rw [hlen]; omega), List.take_take,
        min_eq_left (by omega)]
    rw [(h.node i).applied, ← List.map_take, hdrop, htake]

/-- The book `b` is one of the cluster `w`. -/
def Refines (M : Membership) (w : Cluster Cmd) (b : Book M.Reader (ℕ × ℕ) Cmd) : Prop :=
  ∃ g : Ghost Cmd, Sim M g w ∧ b = g.book M w

theorem book_init (M : Membership) :
    (Ghost.init : Ghost Cmd).book M (Cluster.init M) = Book.blank := by
  have hwritten : (Ghost.init : Ghost Cmd).written = fun _ => none := by
    funext k
    rcases hk : k.1 with _ | n
    · rw [Ghost.written, if_pos hk]
    · rw [Ghost.written, if_neg (by omega), hk]
      show ((if k.2 = 0 then [sentinel] else [] : List (LogEntry Cmd))[n + 1]?).bind _ = none
      split <;> rfl
  have hchosen : ((Cluster.init M : Cluster Cmd).committed M).drop 1 = [] := by
    rcases (Cluster.init M : Cluster Cmd).exists_committed M with hnil | ⟨i, hi⟩
    · rw [hnil]
      rfl
    · rw [hi]
      rfl
  rw [Ghost.book, hwritten, hchosen]
  rfl

/-- **A cluster refines its book.**  The cluster starts with the blank book; whatever it does is a
run of the book; and all along the book tells what is in the logs, committed and applied. -/
theorem cluster_refines_book (M : Membership) :
    Refines M (Cluster.init M : Cluster Cmd) Book.blank ∧
      (∀ w w' : Cluster Cmd, ∀ b e, Refines M w b → Cluster.step M w e = some w' →
        ∃ b', Book.Steps b b' ∧ Refines M w' b') ∧
      ∀ (w : Cluster Cmd) b, Refines M w b → Book.Valid b ∧ Tells M b w := by
  refine ⟨⟨Ghost.init, sim_init M, (book_init M).symm⟩, ?_, ?_⟩
  · rintro w w' b e ⟨g, hg, rfl⟩ he
    obtain ⟨g', -, hg', hb⟩ := hg.book_steps he
    exact ⟨_, hb, g', hg', rfl⟩
  · rintro w b ⟨g, hg, rfl⟩
    exact ⟨hg.book_valid, hg.tells⟩

/-! ### Tickets in runs -/

/-- Every run of the cluster is a run of its book. -/
theorem Sim.book_run (h : Sim M g w) (hs : Steps M w w') :
    ∃ g' : Ghost Cmd, Ext g.toState g'.toState ∧ Sim M g' w' ∧
      Book.Steps (g.book M w) (g'.book M w') := by
  induction hs with
  | refl => exact ⟨g, Ext.refl _, h, .refl⟩
  | tail _ hs ih =>
    obtain ⟨g₁, hx₁, h₁, hb₁⟩ := ih
    obtain ⟨e, he⟩ := hs
    obtain ⟨g₂, hx₂, h₂, hb₂⟩ := h₁.book_steps he
    exact ⟨g₂, hx₁.trans hx₂, h₂, hb₁.trans hb₂⟩

/-- What a member has applied is what the book has given it. -/
theorem Sim.view_getElem? (h : Sim M g w) {i : String} (hi : i ∈ M.ids) {k : ℕ} {f : LogEntry Cmd}
    (hf : (w.applied i)[k]? = some f) : ((g.book M w).view ⟨i, hi⟩)[k]? = some f.ticket ∧
      g.written f.ticket = some f.command ∧ f.index = k + 1 := by
  refine ⟨?_, ?_, ?_⟩
  · rw [← h.tells.applied ⟨i, hi⟩, List.getElem?_map, hf]
    rfl
  · refine h.written_of_mem (i := i) ?_
    have hmem := List.mem_of_getElem? hf
    rw [(h.node i).applied] at hmem
    exact ((List.take_sublist _ _).drop 1).subset hmem
  · rw [(h.node i).applied, List.getElem?_drop] at hf
    have hlog := Ledger.getElem?_of_isPrefix (List.take_prefix _ _) hf
    exact (h.index_eq hlog).trans (Nat.add_comm 1 k)

omit [Inhabited Cmd] in
/-- What `propose` says when it has appended an entry. -/
theorem Node.propose_eq {r : Node Cmd} {command : Cmd} {i t : ℕ}
    (hp : (r.propose command).2 = (i, t, true)) : r.role = .leader ∧ i = r.log.length ∧
      t = r.currentTerm ∧ (r.propose command).1 = { r with log := r.log ++ [⟨t, i, command⟩] } := by
  unfold Node.propose at hp ⊢
  split at hp
  · cases hp
  · rename_i hr
    cases hp
    rw [if_neg hr]
    exact ⟨not_not.mp hr, rfl, rfl, rfl⟩

/-- A leader is about to write in its ledger. -/
theorem Sim.fresh_ticket (h : Sim M g w) {n : String} (hr : (w.node n).role = .leader) :
    (g.ledger (w.node n).currentTerm)[(w.node n).log.length]? = none := by
  rw [((h.node n).leader hr).2.1]
  exact List.getElem?_eq_none le_rfl

/-- **The fate of a proposal.**  When `propose` returns the ticket `(i, t, True)`, then for ever
after nobody is given this ticket again, and the entries with it have this command.  When a
member applies the ticket, it comes after all that anybody had applied when it was proposed, and
whoever applies anything at this place applies the same; when a member applies another entry at
index `i`, nobody ever applies the ticket. -/
theorem ticket_fate {w₁ : Cluster Cmd} (h : Reachable M w) {n : String} {command : Cmd} {i t : ℕ}
    (hp : ((w.node n).propose command).2 = (i, t, true))
    (hstep : Cluster.step M w (.propose n command) = some w₁) (hs : Steps M w₁ w') :
    (∀ m c b, ((w'.node m).propose c).2 ≠ (i, t, b)) ∧
      (∀ m, ∀ f ∈ (w'.node m).log, f.ticket = (i, t) → f.command = command) ∧
      ∀ m ∈ M.ids, ∀ k f, (w'.applied m)[k]? = some f →
        (f.ticket = (i, t) → f.command = command ∧
          (∀ j ∈ M.ids, (w.applied j).length ≤ k) ∧
          ∀ w'' : Cluster Cmd, Steps M w' w'' → ∀ j ∈ M.ids, ∀ f', (w''.applied j)[k]? = some f' →
            f' = f) ∧
        (f.index = i → f.ticket ≠ (i, t) →
          ∀ w'' : Cluster Cmd, Steps M w' w'' → ∀ j ∈ M.ids, ∀ f' ∈ w''.applied j,
            f'.ticket ≠ (i, t)) := by
  obtain ⟨hr, rfl, rfl, hprop⟩ := Node.propose_eq hp
  obtain ⟨-, ⟨⟩⟩ := Option.ite_none_right_eq_some.mp hstep
  rw [hprop] at hs hstep
  set T := (w.node n).currentTerm with hT
  set i := (w.node n).log.length with hi
  set e : LogEntry Cmd := ⟨T, i, command⟩ with he
  obtain ⟨g, hg⟩ := h.exists_history
  obtain ⟨g₁, hx₁, hg₁, hb₁⟩ := hg.book_steps hstep
  obtain ⟨g', hx', hg', hb'⟩ := hg₁.book_run hs
  have hpos : 0 < i := List.length_pos_iff.mpr (hg.log_ne_nil n)
  have hbefore : (g.book M w).written (i, T) = none := by
    show g.written (i, T) = none
    rw [Ghost.written, if_neg hpos.ne', hg.fresh_ticket hr]
    rfl
  have hled : (g'.ledger T)[i]? = some e := by
    have hlog : ((w.set n { w.node n with log := (w.node n).log ++ [e] }).node n).log[i]? =
        some e := by
      rw [Cluster.set_node_self]
      exact List.getElem?_concat_length
    exact Ledger.getElem?_of_isPrefix (hx'.ledger T)
      (Ledger.getElem?_of_take_isPrefix (hg₁.wellFormed n i e hlog) (Nat.lt_succ_self i) hlog)
  have hafter : g'.written (i, T) = some command :=
    Ghost.written_eq_some.mpr ⟨hpos.ne', e, hled, rfl, rfl⟩
  refine ⟨fun m c b hm => ?_, fun m f hf hft => ?_, fun m hm k f hf => ?_⟩
  · -- another leader of the term would be about to write there
    unfold Node.propose at hm
    split at hm
    · have hzero : 0 = i := congrArg Prod.fst hm
      omega
    · rename_i hrole
      have hlen : (w'.node m).log.length = i := congrArg Prod.fst hm
      have hterm : (w'.node m).currentTerm = T := congrArg (fun x => x.2.1) hm
      have hfresh := hg'.fresh_ticket (not_not.mp hrole)
      rw [hterm, hlen, hled] at hfresh
      cases hfresh
  · obtain ⟨k, hk⟩ := List.mem_iff_getElem?.mp hf
    have hidx : f.index = i := congrArg Prod.fst hft
    rw [hg'.index_eq hk] at hidx
    have hmem : f ∈ (w'.node m).log.drop 1 := by
      refine List.mem_iff_getElem?.mpr ⟨k - 1, ?_⟩
      rw [List.getElem?_drop, show 1 + (k - 1) = k by omega, hk]
    have hwritten := hg'.written_of_mem hmem
    rw [hft, hafter] at hwritten
    exact (Option.some_inj.mp hwritten).symm
  obtain ⟨hview, hwritten, hidx⟩ := hg'.view_getElem? hm hf
  refine ⟨fun hft => ?_, fun hfi hne w'' hs' j hj f' hf' hft' => ?_⟩
  · have hcmd : f.command = command := by
      rw [hft, hafter] at hwritten
      exact (Option.some_inj.mp hwritten).symm
    refine ⟨hcmd, fun j hj => ?_, fun w'' hs' j hj f' hf' => ?_⟩
    · have hchosen := Ledger.getElem?_of_isPrefix ((g'.book M w').view_isPrefix _) hview
      rw [hft] at hchosen
      have hle := Book.order (hb₁.trans hb') hg.book_valid hbefore hchosen
      have hlen : ((w.applied j).map LogEntry.ticket).length = _ :=
        congrArg List.length (hg.tells.applied ⟨j, hj⟩)
      rw [List.length_map, Book.view, List.length_take] at hlen
      omega
    · obtain ⟨g'', hx'', hg'', hb''⟩ := hg'.book_run hs'
      obtain ⟨hview', hwritten', -⟩ := hg''.view_getElem? hj hf'
      have hticket := (Book.fate hb'' hg'.book_valid hview hview').mp rfl
      rw [hticket, Ghost.written_mono hx'' hwritten] at hwritten'
      obtain ⟨ft, fi, fc⟩ := f
      obtain ⟨ft', fi', fc'⟩ := f'
      cases hticket
      cases Option.some_inj.mp hwritten'
      rfl
  · -- both would be at the place of index `i`
    obtain ⟨k', hk'⟩ := List.mem_iff_getElem?.mp hf'
    obtain ⟨g'', -, hg'', hb''⟩ := hg'.book_run hs'
    obtain ⟨hview', -, hidx'⟩ := hg''.view_getElem? hj hk'
    have hfi' : f'.index = i := congrArg Prod.fst hft'
    have hplace : k' = k := by omega
    exact hne (((Book.fate hb'' hg'.book_valid hview hview').mp hplace).symm.trans hft')

/-- `a` has proposed 7. -/
def trioProposes : List (Event ℕ) := trioElects ++ [.propose "a" 7]

/-- It replicates the entry to `b`, and both apply it. -/
def trioApplies : List (Event ℕ) :=
  [.replicate "a" "b" 1, .handleAppendEntries 0, .appendReply 0, .applier "a",
    .replicate "a" "b" 1, .handleAppendEntries 0, .applier "b"]

theorem trioElects_runs :
    (Run.exec (Cluster.step trio) (Cluster.init trio) trioElects).isSome = true := by
  decide +kernel

theorem trioProposes_runs :
    (Run.exec (Cluster.step trio) (Cluster.init trio) trioProposes).isSome = true := by
  decide +kernel

theorem trioApplies_runs :
    (Run.exec (Cluster.step trio) (trioAfter _ trioProposes_runs) trioApplies).isSome = true := by
  decide +kernel

/-- The second entry that `b` has applied is 7, and so it will be for everybody. -/
theorem ticket_fate_trio :
    (((Run.exec (Cluster.step trio) (trioAfter _ trioProposes_runs) trioApplies).get
      trioApplies_runs).applied "b")[1]? = some ⟨1, 2, 7⟩ ∧
    ∀ w'', Steps trio ((Run.exec (Cluster.step trio) (trioAfter _ trioProposes_runs)
      trioApplies).get trioApplies_runs) w'' → ∀ j ∈ trio.ids, ∀ f',
        (w''.applied j)[1]? = some f' → f' = ⟨1, 2, 7⟩ := by
  have hb : (((Run.exec (Cluster.step trio) (trioAfter _ trioProposes_runs) trioApplies).get
      trioApplies_runs).applied "b")[1]? = some ⟨1, 2, 7⟩ := by decide +kernel
  have hprop : (((trioAfter _ trioElects_runs).node "a").propose 7).2 = (2, 1, true) := by
    decide +kernel
  have hstep : Cluster.step trio (trioAfter _ trioElects_runs) (.propose "a" 7) =
      some (trioAfter _ trioProposes_runs) := by
    rfl
  exact ⟨hb, ((ticket_fate (trio_reachable trioElects_runs) hprop hstep
    (Run.steps_get trioApplies_runs)).2.2 "b" (by decide) 1 _ hb).1 rfl |>.2.2⟩

end Raft
