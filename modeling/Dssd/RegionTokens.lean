/-
Hand-off calls in runs without failures.

* `Stage`, `World.At` — where a call is, from the request on the wire to the reply;
* `Tokens` — a call is in one place only, and the tick that made it waits for it;
  `Tokens.turn` — every turn moves at most one call on, and keeps this;
* `World.Placed` — `add_agent` has proposed for the call; `Placed.turn` — it stays
  so until the tick has the reply.
-/
import Dssd.RegionSteady

open Function (update)

namespace Region

open Raft (Cluster LogEntry Membership Node Ghost Sim)

variable {S : Setup} {v v' : Shards} {w w' : World} {e : Event} {s n : String}

/-! ### Taking an element off a list -/

section lists

variable {α β : Type*} {l : List α} {k : ℕ} {x : α}

theorem exists_eraseIdx (hk : l[k]? = some x) :
    ∃ l₁ l₂, l = l₁ ++ x :: l₂ ∧ l.eraseIdx k = l₁ ++ l₂ := by
  obtain ⟨hlt, rfl⟩ := List.getElem?_eq_some_iff.mp hk
  refine ⟨l.take k, l.drop (k + 1), ?_, List.eraseIdx_eq_take_drop_succ ..⟩
  rw [← List.drop_eq_getElem_cons hlt, List.take_append_drop]

theorem mem_eraseIdx_of_ne (hk : l[k]? = some x) {y : α} (hy : y ∈ l) (hne : y ≠ x) :
    y ∈ l.eraseIdx k := by
  obtain ⟨l₁, l₂, rfl, herase⟩ := exists_eraseIdx hk
  rw [herase]
  simpa [hne] using hy

theorem not_mem_filterMap_eraseIdx {f : α → Option β} {y : β} (hk : l[k]? = some x)
    (hx : f x = some y) (hn : (l.filterMap f).Nodup) : y ∉ (l.eraseIdx k).filterMap f := by
  obtain ⟨l₁, l₂, rfl, herase⟩ := exists_eraseIdx hk
  rw [List.filterMap_append, List.filterMap_cons_some hx, List.nodup_middle,
    List.nodup_cons] at hn
  rw [herase, List.filterMap_append]
  exact hn.1

theorem not_mem_map_eraseIdx {f : α → β} (hk : l[k]? = some x) (hn : (l.map f).Nodup) :
    f x ∉ (l.eraseIdx k).map f := by
  rw [← List.filterMap_eq_map] at hn ⊢
  exact not_mem_filterMap_eraseIdx hk rfl hn

theorem not_mem_eraseIdx (hk : l[k]? = some x) (hn : l.Nodup) : x ∉ l.eraseIdx k := by
  have := not_mem_map_eraseIdx (f := id) hk (by rwa [List.map_id])
  rwa [List.map_id] at this

end lists

/-! ### Calls -/

/-- Where a `HandOff` call is: on the wire, waiting for the lock of a replica, holding it, holding
it with the agent placed, or answered. -/
inductive Stage
  | requested
  | waiting
  | adding (s n : String)
  | placed (s n : String)
  | replied (accepted : Bool)

def Stage.isPlaced : Stage → Bool
  | placed _ _ => true
  | replied accepted => accepted
  | _ => false

namespace World

def At (w : World) (c : Call) : Stage → Prop
  | .requested => c ∈ w.requests
  | .waiting => c ∈ w.waiting.filterMap AddCall.caller
  | .adding s n => ∃ a t i, w.lock s n = some (.catchUp a (some c) t i)
  | .placed s n => ∃ a t i r, w.lock s n = some (.place a (some c) t i r)
  | .replied accepted => ∃ r, (c, r) ∈ w.replies ∧ r.accepted = accepted

/-- The agent of the call has been placed. -/
def Placed (w : World) (c : Call) : Prop := ∃ σ, w.At c σ ∧ σ.isPlaced = true

/-- The tick that made the call waits for the reply. -/
def Awaits (w : World) (c : Call) : Prop := ∃ ds done, w.tick c.caller = .await c ds done

end World

/-- **A call is in one place only**, and its caller waits for it. -/
structure Tokens (w : World) : Prop where
  awaited : ∀ c σ, w.At c σ → w.Awaits c
  unique : ∀ c σ σ', w.At c σ → w.At c σ' → σ = σ'
  requests : w.requests.Nodup
  waiting : (w.waiting.filterMap AddCall.caller).Nodup
  replies : (w.replies.map Prod.fst).Nodup

theorem tokens_init (S : Setup) : Tokens (World.init S) where
  awaited c σ h := by cases σ <;> simp [World.At, World.init, Shards.lock] at h
  unique c σ σ' h := by cases σ <;> simp [World.At, World.init, Shards.lock] at h
  requests := List.nodup_nil
  waiting := List.nodup_nil
  replies := List.nodup_nil

/-- Two calls of one node are the same. -/
theorem World.Awaits.eq {c c' : Call} (h : w.Awaits c) (h' : w.Awaits c')
    (hc : c.caller = c'.caller) : c = c' := by
  obtain ⟨ds, done, ht⟩ := h
  obtain ⟨ds', done', ht'⟩ := h'
  rw [hc, ht'] at ht
  cases ht
  rfl

/-! ### Turns -/

/-- The holder of the lock of replica `s` on `n` acts for call `c`. -/
def Held (s n : String) (c : Call) (σ : Stage) : Option Holder → Prop
  | some (.catchUp _ caller _ _) => caller = some c ∧ σ = .adding s n
  | some (.place _ caller _ _ _) => caller = some c ∧ σ = .placed s n
  | _ => False

/-- Where a call can be found after a step, by where it could be found before. -/
theorem World.At.of {c : Call} {σ : Stage} {Q : Stage → Prop} (h : w'.At c σ)
    (hr : c ∈ w'.requests → c ∈ w.requests ∨ Q .requested)
    (hw : c ∈ w'.waiting.filterMap AddCall.caller →
      c ∈ w.waiting.filterMap AddCall.caller ∨ Q .waiting)
    (ha : ∀ r, (c, r) ∈ w'.replies → (c, r) ∈ w.replies ∨ Q (.replied r.accepted))
    (hl : ∀ s n, w'.lock s n = w.lock s n ∨ ∀ σ, Held s n c σ (w'.lock s n) → Q σ) :
    w.At c σ ∨ Q σ := by
  cases σ with
  | requested => exact hr h
  | waiting => exact hw h
  | adding s n =>
    obtain ⟨a, t, i, hlock⟩ := h
    rcases hl s n with heq | hnew
    · exact .inl ⟨a, t, i, heq ▸ hlock⟩
    · exact .inr (hnew _ (by rw [hlock]; exact ⟨rfl, rfl⟩))
  | placed s n =>
    obtain ⟨a, t, i, r, hlock⟩ := h
    rcases hl s n with heq | hnew
    · exact .inl ⟨a, t, i, r, heq ▸ hlock⟩
    · exact .inr (hnew _ (by rw [hlock]; exact ⟨rfl, rfl⟩))
  | replied accepted =>
    obtain ⟨r, hr, rfl⟩ := h
    exact (ha r hr).imp (fun hold => ⟨r, hold, rfl⟩) id

/-- No call moves; ticks that wait for none may go on. -/
theorem Tokens.stay (h : Tokens w) (hr : w'.requests.Sublist w.requests)
    (hw : (w'.waiting.filterMap AddCall.caller).Sublist (w.waiting.filterMap AddCall.caller))
    (ha : w'.replies.Sublist w.replies)
    (hl : ∀ c s n, w'.lock s n = w.lock s n ∨ ∀ σ, ¬ Held s n c σ (w'.lock s n))
    (htick : ∀ c σ, w'.At c σ → w.Awaits c → w'.Awaits c) : Tokens w' := by
  have hat : ∀ {c σ}, w'.At c σ → w.At c σ := by
    intro c σ hc
    have := World.At.of (w := w) (Q := fun _ => False) hc (fun hin => .inl (hr.subset hin))
      (fun hin => .inl (hw.subset hin)) (fun r hin => .inl (ha.subset hin)) fun s n => hl c s n
    exact this.resolve_right id
  exact ⟨fun c σ hc => htick c σ hc (h.awaited c σ (hat hc)),
    fun c σ σ' hc hc' => h.unique c σ σ' (hat hc) (hat hc'), h.requests.sublist hr,
    h.waiting.sublist hw, h.replies.sublist (ha.map _)⟩

/-- One call moves on. -/
theorem Tokens.pass (h : Tokens w) {c : Call} {σ : Stage} (τ : Stage) (hσ : w.At c σ)
    (hat : ∀ c₁ σ₁, w'.At c₁ σ₁ → w.At c₁ σ₁ ∨ c₁ = c ∧ σ₁ = τ) (hgone : ¬ w'.At c σ)
    (htick : w'.tick = w.tick) (hr : w'.requests.Nodup)
    (hw : (w'.waiting.filterMap AddCall.caller).Nodup) (ha : (w'.replies.map Prod.fst).Nodup) :
    Tokens w' := by
  -- where it was it is no more, so it is only where it has gone to
  have hnew : ∀ {σ₁}, w'.At c σ₁ → σ₁ = τ := by
    intro σ₁ hc
    rcases hat c σ₁ hc with hold | ⟨-, heq⟩
    · exact absurd (h.unique c σ₁ σ hold hσ ▸ hc) hgone
    · exact heq
  refine ⟨fun c₁ σ₁ hc => ?_, fun c₁ σ₁ σ₂ hc hc' => ?_, hr, hw, ha⟩
  · unfold World.Awaits
    rw [htick]
    rcases hat c₁ σ₁ hc with hold | ⟨rfl, -⟩
    · exact h.awaited c₁ σ₁ hold
    · exact h.awaited c₁ σ hσ
  · by_cases heq : c₁ = c
    · subst heq
      rw [hnew hc, hnew hc']
    · have hold := (hat c₁ σ₁ hc).resolve_right fun hne => heq hne.1
      have hold' := (hat c₁ σ₂ hc').resolve_right fun hne => heq hne.1
      exact h.unique c₁ σ₁ σ₂ hold hold'

/-- One replica changes; its new lock holder acts for a call only as `Q` says. -/
theorem lock_setReplica_or {r : Replica} {s' n' : String} {c : Call} {Q : Stage → Prop}
    (hnew : ∀ σ, Held s n c σ r.lock → Q σ) :
    (v.setReplica s n r).lock s' n' = v.lock s' n' ∨
      ∀ σ, Held s' n' c σ ((v.setReplica s n r).lock s' n') → Q σ := by
  rw [Shards.lock_setReplica]
  split
  · rename_i heq
    obtain ⟨rfl, rfl⟩ := heq
    exact .inr hnew
  · exact .inl rfl

/-- A call that has not been answered is answered. -/
theorem Tokens.nodup_reply (h : Tokens w) {c : Call} {σ : Stage} {r : HandOffResponse}
    (hσ : w.At c σ) (hne : ∀ b, σ ≠ .replied b) :
    ((w.replies ++ [(c, r)]).map Prod.fst).Nodup := by
  rw [List.map_append, List.map_singleton, ← List.concat_eq_append, List.nodup_concat]
  refine ⟨fun hin => ?_, h.replies⟩
  obtain ⟨⟨c', r'⟩, hr', rfl⟩ := List.mem_map.mp hin
  exact hne _ (h.unique _ σ (.replied r'.accepted) hσ ⟨r', hr', rfl⟩)

/-- A tick that waits for no call goes on. -/
theorem World.awaits_setTick {t : Tick} (hno : ∀ c ds done, w.tick n ≠ .await c ds done) {c : Call}
    (h : w.Awaits c) : (w.setTick n t).Awaits c := by
  obtain ⟨ds, done, ht⟩ := h
  refine ⟨ds, done, ?_⟩
  have hne : c.caller ≠ n := fun hn => hno c ds done (hn ▸ ht)
  exact (Function.update_of_ne hne _ _).trans ht

theorem Tokens.accept (h : Tokens w) {k : ℕ} {c : Call} {t : AddCall}
    (hk : w.requests[k]? = some c) (ht : t.caller = some c) : Tokens { w with
      requests := w.requests.eraseIdx k
      waiting := w.waiting ++ [t] } := by
  have hσ : w.At c .requested := List.mem_of_getElem? hk
  have hlist : (w.waiting ++ [t]).filterMap AddCall.caller =
      w.waiting.filterMap AddCall.caller ++ [c] := by
    simp [ht]
  refine h.pass .waiting hσ (fun c₁ σ₁ hc => ?_) (not_mem_eraseIdx hk h.requests) rfl
    (h.requests.sublist (List.eraseIdx_sublist _ _)) ?_ h.replies
  · refine World.At.of (w := w) (Q := fun σ => c₁ = c ∧ σ = .waiting) hc
      (fun hin => .inl (List.mem_of_mem_eraseIdx hin)) (fun hin => ?_) (fun _ => .inl)
      fun s n => .inl rfl
    rcases List.mem_append.mp (hlist ▸ hin) with hin | hin
    · exact .inl hin
    · exact .inr ⟨List.mem_singleton.mp hin, rfl⟩
  · show ((w.waiting ++ [t]).filterMap AddCall.caller).Nodup
    rw [hlist, ← List.concat_eq_append, List.nodup_concat]
    refine ⟨fun hin => ?_, h.waiting⟩
    exact nomatch h.unique c .requested .waiting hσ hin

theorem Tokens.refuse (h : Tokens w) {k : ℕ} {c : Call} {r : HandOffResponse}
    (hk : w.requests[k]? = some c) : Tokens { w with
      requests := w.requests.eraseIdx k
      replies := w.replies ++ [(c, r)] } := by
  have hσ : w.At c .requested := List.mem_of_getElem? hk
  refine h.pass (.replied r.accepted) hσ (fun c₁ σ₁ hc => ?_) (not_mem_eraseIdx hk h.requests)
    rfl (h.requests.sublist (List.eraseIdx_sublist _ _)) h.waiting
    (h.nodup_reply hσ fun _ hb => nomatch hb)
  refine World.At.of (w := w) (Q := fun σ => c₁ = c ∧ σ = .replied r.accepted) hc
    (fun hin => .inl (List.mem_of_mem_eraseIdx hin)) .inl (fun r₁ hin => ?_) fun s n => .inl rfl
  rcases List.mem_append.mp hin with hin | hin
  · exact .inl hin
  · cases List.mem_singleton.mp hin
    exact .inr ⟨rfl, rfl⟩

theorem Tokens.take (h : Tokens w) {k i : ℕ} {t : AddCall} {r : Registry} {u : ℕ}
    (hk : w.waiting[k]? = some t) :
    Tokens ({ w with waiting := w.waiting.eraseIdx k }.setReplica t.shard t.node
      ⟨r, some (.catchUp t.agent t.caller u i)⟩) := by
  have hsub : ((w.waiting.eraseIdx k).filterMap AddCall.caller).Sublist
      (w.waiting.filterMap AddCall.caller) := (List.eraseIdx_sublist _ _).filterMap _
  cases hcaller : t.caller with
  | none =>
    refine h.stay (.refl _) hsub (.refl _) (fun c s n => ?_) fun _ _ _ => id
    exact lock_setReplica_or (Q := fun _ => False) fun σ hσ => nomatch hσ.1
  | some c =>
    refine h.pass (σ := .waiting) (.adding t.shard t.node)
      (List.mem_filterMap.mpr ⟨t, List.mem_of_getElem? hk, hcaller⟩) (fun c₁ σ₁ hc => ?_)
      (not_mem_filterMap_eraseIdx hk hcaller h.waiting) rfl h.requests (h.waiting.sublist hsub)
      h.replies
    refine World.At.of (w := w) (Q := fun σ => c₁ = c ∧ σ = .adding t.shard t.node) hc .inl
      (fun hin => .inl (hsub.subset hin)) (fun _ => .inl)
      fun s n => lock_setReplica_or fun σ hσ => ?_
    exact ⟨(Option.some_inj.mp hσ.1).symm, hσ.2⟩

theorem Tokens.place (h : Tokens w) {a : AgentState} {caller : Option Call} {t i : ℕ}
    {spawns : List String} (hlock : w.lock s n = some (.catchUp a caller t i)) : Tokens { w with
      toShards := w.toShards.place s n a caller, spawns := spawns } := by
  have hother : ∀ {s' n'}, ¬ (s' = s ∧ n' = n) →
      (w.toShards.place s n a caller).lock s' n' = w.lock s' n' := fun hne => by
    rw [Shards.lock_place, if_neg hne]
  have hself : (w.toShards.place s n a caller).lock s n = some (.place a caller
      (w.node s n).currentTerm (w.node s n).log.length (w.agents s n)) := by
    rw [Shards.lock_place, if_pos ⟨rfl, rfl⟩]
  -- a spawn is nobody's call
  cases caller with
  | none =>
    refine h.stay (.refl _) (.refl _) (.refl _) (fun c s' n' => ?_) fun _ _ _ => id
    by_cases heq : s' = s ∧ n' = n
    · obtain ⟨rfl, rfl⟩ := heq
      refine .inr fun σ hσ => ?_
      change Held s' n' c σ (Shards.lock _ s' n') at hσ
      rw [hself] at hσ
      exact nomatch hσ.1
    · exact .inl (hother heq)
  | some c =>
    refine h.pass (σ := .adding s n) (.placed s n) ⟨a, t, i, hlock⟩ (fun c₁ σ₁ hc => ?_)
      (fun hc => ?_) rfl h.requests h.waiting h.replies
    · refine World.At.of (w := w) (Q := fun σ => c₁ = c ∧ σ = .placed s n) hc .inl .inl
        (fun _ => .inl) fun s' n' => ?_
      by_cases heq : s' = s ∧ n' = n
      · obtain ⟨rfl, rfl⟩ := heq
        refine .inr fun σ hσ => ?_
        change Held s' n' c₁ σ (Shards.lock _ s' n') at hσ
        rw [hself] at hσ
        exact ⟨(Option.some_inj.mp hσ.1).symm, hσ.2⟩
      · exact .inl (hother heq)
    · obtain ⟨a', t', i', hc⟩ := hc
      exact nomatch hself.symm.trans hc

theorem Tokens.finish (h : Tokens w) {a : AgentState} {caller : Option Call} {t i : ℕ}
    {before r : Registry} (hlock : w.lock s n = some (.place a caller t i before)) :
    Tokens ((w.setReplica s n ⟨r, none⟩).finish a true caller) := by
  cases caller with
  | none =>
    refine h.stay (.refl _) (.refl _) (.refl _) (fun c s' n' => ?_) fun _ _ _ => id
    exact lock_setReplica_or (Q := fun _ => False) fun σ hσ => hσ
  | some c =>
    have hσ : w.At c (.placed s n) := ⟨a, t, i, before, hlock⟩
    refine h.pass (.replied true) hσ (fun c₁ σ₁ hc => ?_) (fun hc => ?_) rfl h.requests
      h.waiting (h.nodup_reply hσ fun _ hb => nomatch hb)
    · refine World.At.of (w := w) (Q := fun σ => c₁ = c ∧ σ = .replied true) hc .inl .inl
        (fun r₁ hin => ?_) fun s' n' => lock_setReplica_or fun σ hσ => hσ.elim
      rcases List.mem_append.mp hin with hin | hin
      · exact .inl hin
      · cases List.mem_singleton.mp hin
        exact .inr ⟨rfl, rfl⟩
    · obtain ⟨a', t', i', r', hc⟩ := hc
      change (w.toShards.setReplica s n ⟨r, none⟩).lock s n = _ at hc
      rw [Shards.lock_setReplica_self] at hc
      exact nomatch hc

theorem Tokens.send (h : Tokens w) {c : Call} {ds done : List Departure} {k : ℕ}
    (htick : ∀ c' ds' done', w.tick c.caller ≠ .await c' ds' done') :
    Tokens { w.setTick c.caller (.await c ds done) with
      requests := w.requests ++ [c], nextCall := k } := by
  -- its caller has waited for no call, so this one has been nowhere
  have hnew : ∀ {σ}, ¬ w.At c σ := fun hc =>
    let ⟨_, _, ht⟩ := h.awaited c _ hc
    htick _ _ _ ht
  have hat : ∀ {c₁ σ₁}, World.At { w.setTick c.caller (.await c ds done) with
      requests := w.requests ++ [c], nextCall := k } c₁ σ₁ →
        w.At c₁ σ₁ ∨ c₁ = c ∧ σ₁ = .requested := by
    intro c₁ σ₁ hc
    refine World.At.of (w := w) (Q := fun σ => c₁ = c ∧ σ = .requested) hc (fun hin => ?_) .inl
      (fun _ => .inl) fun s n => .inl rfl
    rcases List.mem_append.mp hin with hin | hin
    · exact .inl hin
    · exact .inr ⟨List.mem_singleton.mp hin, rfl⟩
  refine ⟨fun c₁ σ₁ hc => ?_, fun c₁ σ₁ σ₂ hc hc' => ?_, ?_, h.waiting, h.replies⟩
  · rcases hat hc with hold | ⟨rfl, -⟩
    · exact World.awaits_setTick htick (h.awaited c₁ σ₁ hold)
    · exact ⟨ds, done, Function.update_self _ _ _⟩
  · rcases hat hc with hold | ⟨rfl, rfl⟩
    · rcases hat hc' with hold' | ⟨rfl, rfl⟩
      · exact h.unique c₁ σ₁ σ₂ hold hold'
      · exact absurd hold hnew
    · exact ((hat hc').resolve_left hnew).2.symm
  · show (w.requests ++ [c]).Nodup
    rw [← List.concat_eq_append, List.nodup_concat]
    exact ⟨fun hin => hnew (σ := .requested) hin, h.requests⟩

theorem Tokens.answer (h : Tokens w) {k : ℕ} {c : Call} {r : HandOffResponse} {t : Tick}
    (hk : w.replies[k]? = some (c, r)) :
    Tokens ({ w with replies := w.replies.eraseIdx k }.setTick c.caller t) := by
  have hσ : w.At c (.replied r.accepted) := ⟨r, List.mem_of_getElem? hk, rfl⟩
  refine h.stay (.refl _) (.refl _) (List.eraseIdx_sublist _ _) (fun c s n => .inl rfl)
    fun c₁ σ₁ hc ha => ?_
  -- the answered call is gone, and all others are waited for by other ticks
  have hne : c₁ ≠ c := by
    rintro rfl
    have hold := World.At.of (w := w) (Q := fun _ => False) hc .inl .inl
      (fun r hin => .inl (List.mem_of_mem_eraseIdx hin)) fun s n => .inl rfl
    obtain rfl := h.unique c₁ _ _ (hold.resolve_right id) hσ
    obtain ⟨r', hr', -⟩ := hc
    exact not_mem_map_eraseIdx hk h.replies (List.mem_map.mpr ⟨_, hr', rfl⟩)
  obtain ⟨ds, done, ht⟩ := ha
  refine ⟨ds, done, ?_⟩
  have hcaller : c₁.caller ≠ c.caller := fun heq =>
    hne (World.Awaits.eq ⟨ds, done, ht⟩ (h.awaited c _ hσ) heq)
  exact (Function.update_of_ne hcaller _ _).trans ht

theorem Tick.Advance.not_await {leads : String → Prop} {t t' : Tick} (h : Advance S leads t t')
    (c : Call) (ds done : List Departure) : t ≠ .await c ds done := by
  cases h <;> simp

/-- **Every turn keeps calls in one place**, one case for each. -/
theorem Tokens.turn (h : Tokens w) (ht : Turn S w e w') : Tokens w' := by
  have hfree : ∀ {s n r c s' n'}, r.lock = none ∨ (∃ ids t i, r.lock = some (.remove ids t i)) →
      (w.toShards.setReplica s n r).lock s' n' = w.lock s' n' ∨
        ∀ σ, ¬ Held s' n' c σ ((w.toShards.setReplica s n r).lock s' n') := by
    intro s n r c s' n' hr
    refine lock_setReplica_or (Q := fun _ => False) fun σ hσ => ?_
    rcases hr with hr | ⟨ids, t, i, hr⟩ <;> rw [hr] at hσ <;> exact hσ
  cases ht with
  | idle => exact h
  | raft he hv =>
    refine h.stay (.refl _) (.refl _) (.refl _) (fun c s n => .inl ?_) fun _ _ _ => id
    exact congrFun (congrFun (Shards.lock_raftStep hv) s) n
  | @spawn s n a hlead =>
    refine h.stay (.refl _) ?_ (.refl _) (fun c s n => .inl rfl) fun _ _ _ => id
    rw [List.filterMap_append]
    simp
  | accept hk hlead => exact h.accept hk rfl
  | refuse hk => exact h.refuse hk
  | take hk hl => exact h.take hk
  | place hlock => exact h.place hlock
  | finish hlock => exact h.finish hlock
  | pop he hlock hi htick =>
    refine h.stay (.refl _) (.refl _) (.refl _) (fun c s' n' => hfree (.inl rfl)) fun c σ _ hc => ?_
    exact World.awaits_setTick (w := (w.setReplica _ _ _).proposeTick _ _) (by
      intro c ds done heq
      exact absurd (htick.symm.trans heq) (by simp)) hc
  | @tick n t ha =>
    refine h.stay (.refl _) (.refl _) (.refl _) (fun c s n => .inl rfl) fun c σ _ hc => ?_
    exact World.awaits_setTick ha.not_await hc
  | move htick hl =>
    refine h.stay (.refl _) (.refl _) (.refl _) (fun c s' n' => hfree (.inl rfl)) fun c σ _ hc => ?_
    exact World.awaits_setTick (w := (w.setReplica _ _ _).proposeTick _ _) (by
      intro c ds done heq
      exact absurd (htick.symm.trans heq) (by simp)) hc
  | send hc htick =>
    subst hc
    exact h.send fun _ _ _ heq => nomatch htick.symm.trans heq
  | reply hk htick => exact h.answer hk
  | startRemove htick hl =>
    exact h.stay (.refl _) (.refl _) (.refl _) (fun c s' n' => hfree (.inr ⟨_, _, _, rfl⟩))
      fun _ _ _ => id

/-! ### Placed calls -/

theorem World.placed_iff {c : Call} : w.Placed c ↔
    (∃ s n a t i r, w.lock s n = some (.place a (some c) t i r)) ∨
      ∃ r, (c, r) ∈ w.replies ∧ r.accepted = true := by
  constructor
  · rintro ⟨σ, hσ, hp⟩
    cases σ with
    | placed s n => exact .inl ⟨s, n, hσ⟩
    | replied accepted =>
      obtain ⟨r, hr, rfl⟩ := hσ
      exact .inr ⟨r, hr, hp⟩
    | _ => exact absurd hp (by simp [Stage.isPlaced])
  · rintro (⟨s, n, hl⟩ | ⟨r, hr, ha⟩)
    · exact ⟨.placed s n, hl, rfl⟩
    · exact ⟨.replied true, ⟨r, hr, ha⟩, rfl⟩

/-- No `add_agent` that has proposed lets go of its lock, and no reply is taken. -/
theorem World.Placed.mono {c : Call} (h : w.Placed c)
    (hl : ∀ s n, w'.lock s n = w.lock s n ∨ ∀ a caller t i r,
      w.lock s n ≠ some (.place a caller t i r))
    (hr : w.replies ⊆ w'.replies) : w'.Placed c := by
  rw [placed_iff] at h ⊢
  rcases h with ⟨s, n, a, t, i, r, hlock⟩ | ⟨r, hin, ha⟩
  · rcases hl s n with heq | hno
    · exact .inl ⟨s, n, a, t, i, r, heq ▸ hlock⟩
    · exact absurd hlock (hno _ _ _ _ _)
  · exact .inr ⟨r, hr hin, ha⟩

/-- What is placed stays so as long as its caller waits. -/
theorem World.Placed.turn {c : Call} (hc : w.Placed c) (ht : Turn S w e w')
    (ha : w'.Awaits c) : w'.Placed c := by
  have hset : ∀ {s n r s' n'}, (∀ a caller t i b, w.lock s n ≠ some (.place a caller t i b)) →
      (w.toShards.setReplica s n r).lock s' n' = w.lock s' n' ∨
        ∀ a caller t i b, w.lock s' n' ≠ some (.place a caller t i b) := by
    intro s n r s' n' hno
    rw [Shards.lock_setReplica]
    split
    · rename_i heq
      obtain ⟨rfl, rfl⟩ := heq
      exact .inr hno
    · exact .inl rfl
  cases ht with
  | idle => exact hc
  | raft he hv =>
    exact hc.mono (fun s n => .inl (congrFun (congrFun (Shards.lock_raftStep hv) s) n)) fun _ => id
  | spawn | accept | tick | send => exact hc.mono (fun s n => .inl rfl) fun _ => id
  | refuse hk => exact hc.mono (fun s n => .inl rfl) (List.subset_append_left _ _)
  | take hk hl => exact hc.mono (fun s n => hset fun _ _ _ _ _ => by simp [hl]) fun _ => id
  | @place s n a caller t i hl =>
    refine hc.mono (fun s' n' => ?_) fun _ => id
    show Shards.lock _ s' n' = _ ∨ _
    rw [Shards.lock_place]
    split
    · rename_i heq
      exact .inr fun _ _ _ _ _ => by simp [heq.1, heq.2, hl]
    · exact .inl rfl
  | @finish s n a caller t i before hl =>
    -- a call that is done is answered with `True`
    rw [World.placed_iff] at hc ⊢
    rcases hc with ⟨s', n', a', t', i', r', hlock⟩ | ⟨r, hin, hacc⟩
    · by_cases heq : s' = s ∧ n' = n
      · obtain ⟨rfl, rfl⟩ := heq
        cases hl.symm.trans hlock
        exact .inr ⟨⟨true, ""⟩, List.mem_append_right _ (List.mem_singleton_self _), rfl⟩
      · refine .inl ⟨s', n', a', t', i', r', ?_⟩
        rw [World.toShards_finish]
        show (w.toShards.setReplica s n _).lock s' n' = _
        rw [Shards.lock_setReplica, if_neg heq, hlock]
    · refine .inr ⟨r, ?_, hacc⟩
      cases caller with
      | none => exact hin
      | some c' => exact List.mem_append_left _ hin
  | pop he hl hi htick => exact hc.mono (fun s n => hset fun _ _ _ _ _ => by simp [hl]) fun _ => id
  | move htick hl => exact hc.mono (fun s n => hset fun _ _ _ _ _ => by simp [hl]) fun _ => id
  | @reply k c' r ds done hk htick =>
    obtain ⟨ds', done', ht'⟩ := ha
    have hne : c.caller ≠ c'.caller := by
      intro heq
      change update w.tick c'.caller _ c.caller = _ at ht'
      rw [heq, Function.update_self] at ht'
      exact nomatch ht'
    rw [World.placed_iff] at hc ⊢
    refine hc.imp id fun ⟨r', hin, hacc⟩ => ⟨r', mem_eraseIdx_of_ne hk hin fun heq => ?_, hacc⟩
    exact hne (congrArg (fun x => x.1.caller) heq)
  | startRemove htick hl =>
    exact hc.mono (fun s n => hset fun _ _ _ _ _ => by simp [hl]) fun _ => id

end Region
