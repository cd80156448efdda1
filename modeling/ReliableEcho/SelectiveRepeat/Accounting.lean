import ReliableEcho.SelectiveRepeat.Ledger

/-!
# What the log of a run says about its counters

`Acked` says that the ack cursor is one past the greatest echo. `Ordered` says
that a fresh packet is sent after every copy of a smaller one, and only after
those. `Counted` relates the losses counted to the queue: a number can be
counted again only while its first declaration is still queued.
-/

namespace SelectiveRepeat

open Runs (Path)

variable {τ : Type} {w : ℕ} {σ σ' : Sender τ} {log lines : List (Line τ)}
  {as : List (List (Line τ))}

-- ---------------------------------------------------------------------------
-- The ack cursor
-- ---------------------------------------------------------------------------

structure Acked (log : List (Line τ)) (σ : Sender τ) : Prop where
  below : ∀ s ∈ echoes log, s < σ.ack
  top : ∀ s < σ.ack, ∃ k ∈ echoes log, s ≤ k
  gaps : ∀ s ∈ lostBy .gap log, s < σ.ack

theorem Acked.step (h : Acked log σ) (hs : Step w σ lines σ') : Acked (log ++ lines) σ' := by
  obtain ⟨below, top, gaps⟩ := h
  cases hs with
  | fresh | retry | skip | expire | giveUp =>
    exact ⟨by simpa using below, by simpa using top, by simpa using gaps⟩
  | @echo s sent =>
    refine ⟨?_, ?_, ?_⟩
    · simp only [echoes_append, echoes_echoLines, List.mem_append, List.mem_singleton]
      rintro k (hk | rfl)
      · exact Nat.lt_of_lt_of_le (below k hk) (Nat.le_max_left _ _)
      · exact Nat.lt_of_lt_of_le (Nat.lt_succ_self k) (Nat.le_max_right _ _)
    · intro k hk
      rcases Nat.lt_or_ge k σ.ack with hlt | hge
      · obtain ⟨j, hj, hle⟩ := top k hlt
        exact ⟨j, by simp [hj], hle⟩
      · exact ⟨s, by simp, by have : k < max σ.ack (s + 1) := hk; omega⟩
    · simp only [lostBy_append, lostBy_echoLines, ↓reduceIte, List.mem_append, Sender.mem_gap]
      rintro k (hk | hk)
      · exact Nat.lt_of_lt_of_le (gaps k hk) (Nat.le_max_left _ _)
      · exact Nat.lt_of_lt_of_le (Nat.lt_succ_of_lt hk.2.1) (Nat.le_max_right _ _)

theorem acked_of_path (h : Path (Step w) Sender.init as σ) : Acked as.flatten σ :=
  ledger_of_path h ⟨by simp, by simp [Sender.init], by simp⟩ fun _ _ _ _ _ hj hs => hj.step hs

/-- A number is below the cursor exactly when it or a later one was echoed. -/
theorem Acked.lt_ack_iff {s : ℕ} (h : Acked log σ) : s < σ.ack ↔ ∃ k ∈ echoes log, s ≤ k :=
  ⟨h.top s, fun ⟨k, hk, hle⟩ => Nat.lt_of_le_of_lt hle (h.below k hk)⟩

-- ---------------------------------------------------------------------------
-- The order of transmissions
-- ---------------------------------------------------------------------------

structure Ordered (log : List (Line τ)) (σ : Sender τ) : Prop where
  ascending : (sends log).Pairwise fun a b => b.1 = .first → a.2.1 < b.2.1
  sent_lt : ∀ a ∈ sends log, a.2.1 < σ.next
  firsts : ∀ s < σ.next, ∃ t, (.first, s, t) ∈ sends log

theorem Ordered.step (ok : σ.Ok w) (h : Ordered log σ) (hs : Step w σ lines σ') :
    Ordered (log ++ lines) σ' := by
  obtain ⟨ascending, sent_lt, firsts⟩ := h
  cases hs with
  | skip | echo | expire | giveUp =>
    exact ⟨by simpa using ascending, by simpa using sent_lt, by simpa using firsts⟩
  | fresh t idle room =>
    refine ⟨?_, ?_, ?_⟩
    · simp only [sends_append, sends_packetSend, List.pairwise_append, List.mem_singleton]
      exact ⟨ascending, by simp, fun a ha b hb => by subst hb; exact fun _ => sent_lt a ha⟩
    · simp only [sends_append, sends_packetSend, List.mem_append, List.mem_singleton]
      rintro a (ha | rfl)
      · exact Nat.lt_succ_of_lt (sent_lt a ha)
      · exact Nat.lt_succ_self _
    · intro s hs
      rcases Nat.lt_succ_iff_lt_or_eq.mp hs with hs | rfl
      · obtain ⟨t₁, ht⟩ := firsts s hs
        exact ⟨t₁, by simp [ht]⟩
      · exact ⟨t, by simp⟩
  | @retry s rest t head new =>
    refine ⟨?_, ?_, ?_⟩
    · simp only [sends_append, sends_packetRetrans, List.pairwise_append, List.mem_singleton]
      exact ⟨ascending, by simp, fun a ha b hb => by subst hb; intro h; cases h⟩
    · simp only [sends_append, sends_packetRetrans, List.mem_append, List.mem_singleton]
      rintro a (ha | rfl)
      · exact sent_lt a ha
      · exact ok.pending_lt s (by simp [head])
    · intro k hk
      obtain ⟨t₁, ht⟩ := firsts k hk
      exact ⟨t₁, by simp [ht]⟩

theorem ordered_of_path (h : Path (Step w) Sender.init as σ) : Ordered as.flatten σ :=
  ledger_of_path h ⟨by simp, by simp, by simp [Sender.init]⟩ fun _ _ _ _ ok hj hs => hj.step ok hs

theorem Ordered.first_before {i j s k : ℕ} {c : Copy} {t u : τ} (h : Ordered log σ)
    (hi : (sends log)[i]? = some (.first, s, t)) (hj : (sends log)[j]? = some (c, k, u))
    (hlt : s < k) : i < j := by
  have asc := List.pairwise_iff_getElem.mp h.ascending
  obtain ⟨hi', ei⟩ := List.getElem?_eq_some_iff.mp hi
  obtain ⟨hj', ej⟩ := List.getElem?_eq_some_iff.mp hj
  rcases Nat.lt_trichotomy i j with hij | rfl | hji
  · exact hij
  · rw [ei] at ej
    simp only [Prod.mk.injEq] at ej
    omega
  · have := asc j i hj' hi' hji (by rw [ei])
    rw [ei, ej] at this
    exact absurd this (by simp; omega)

theorem Ordered.before_first {i j s k : ℕ} {c : Copy} {t u : τ} (h : Ordered log σ)
    (hi : (sends log)[i]? = some (.first, s, t)) (hj : (sends log)[j]? = some (c, k, u))
    (hlt : j < i) : k < s := by
  obtain ⟨hi', ei⟩ := List.getElem?_eq_some_iff.mp hi
  obtain ⟨hj', ej⟩ := List.getElem?_eq_some_iff.mp hj
  have := List.pairwise_iff_getElem.mp h.ascending j i hj' hi' hlt (by rw [ei])
  rwa [ei, ej] at this

-- ---------------------------------------------------------------------------
-- The losses counted
-- ---------------------------------------------------------------------------

structure Counted (log : List (Line τ)) (σ : Sender τ) : Prop where
  gap_nodup : (lostBy .gap log).Nodup
  timeout_nodup : (lostBy .timeout log).Nodup
  known : ∀ s ∈ lost log, s < σ.next ∧ (s ∈ σ.retried ∨ s ∈ σ.pending)
  queued : ∀ s ∈ σ.pending, s ∉ σ.retried → s ∈ lost log

theorem mem_lost {s : ℕ} : s ∈ lost log ↔ s ∈ lostBy .gap log ∨ s ∈ lostBy .timeout log := by
  simp only [lost, lostBy, List.mem_map, List.mem_filter, Prod.exists, decide_eq_true_eq]
  constructor
  · rintro ⟨c, k, ⟨hm, hc⟩, rfl⟩
    cases c with
    | gap => exact .inl ⟨.gap, k, ⟨hm, rfl⟩, rfl⟩
    | timeout => exact .inr ⟨.timeout, k, ⟨hm, rfl⟩, rfl⟩
    | giveUp => exact absurd rfl hc
  · rintro (⟨c, k, ⟨hm, rfl⟩, rfl⟩ | ⟨c, k, ⟨hm, rfl⟩, rfl⟩)
    · exact ⟨_, k, ⟨hm, by decide⟩, rfl⟩
    · exact ⟨_, k, ⟨hm, by decide⟩, rfl⟩

theorem length_lost :
    (lost log).length = (lostBy .gap log).length + (lostBy .timeout log).length := by
  simp only [lost, lostBy, List.length_map]
  induction losses log with
  | nil => rfl
  | cons l ls ih =>
    obtain ⟨c, s⟩ := l
    cases c <;> simp_all <;> omega

theorem Counted.step (ok : σ.Ok w) (ha : Acked log σ) (h : Counted log σ)
    (hs : Step w σ lines σ') : Counted (log ++ lines) σ' := by
  obtain ⟨gap_nodup, timeout_nodup, known, queued⟩ := h
  cases hs with
  | fresh t idle room =>
    refine ⟨by simpa using gap_nodup, by simpa using timeout_nodup, ?_, ?_⟩
    · intro s hs
      obtain ⟨h₁, h₂⟩ := known s (by simpa using hs)
      exact ⟨Nat.lt_succ_of_lt h₁, h₂⟩
    · simpa using queued
  | @retry s rest t head new =>
    refine ⟨by simpa using gap_nodup, by simpa using timeout_nodup, ?_, ?_⟩
    · intro k hk
      obtain ⟨h₁, h₂⟩ := known k (by simpa using hk)
      exact ⟨h₁, by grind⟩
    · intro k hk hr
      have := queued k (by simp [head, show k ∈ rest from hk]) (by grind)
      simpa using this
  | @skip s rest head old =>
    refine ⟨by simpa using gap_nodup, by simpa using timeout_nodup, ?_, ?_⟩
    · intro k hk
      obtain ⟨h₁, h₂⟩ := known k (by simpa using hk)
      exact ⟨h₁, by grind⟩
    · intro k hk hr
      simpa using queued k (by simp [head, show k ∈ rest from hk]) hr
  | @echo s sent =>
    refine ⟨?_, by simpa using timeout_nodup, ?_, ?_⟩
    · -- the gap lies at or above the cursor, earlier gaps below it
      simp only [lostBy_append, lostBy_echoLines, ↓reduceIte]
      refine gap_nodup.append (σ.gap_nodup s) ?_
      intro k hk hj
      have h₁ := ha.gaps k hk
      have h₂ := (Sender.mem_gap.mp hj).1
      omega
    · intro k hk
      simp only [lost_append, lost_echoLines, List.mem_append] at hk
      rcases hk with hk | hk
      · obtain ⟨h₁, h₂⟩ := known k hk
        exact ⟨h₁, h₂.imp_right fun h => List.mem_append_left _ h⟩
      · have hg := Sender.mem_gap.mp hk
        exact ⟨Nat.lt_trans hg.2.1 sent, .inr (List.mem_append_right _ hk)⟩
    · intro k hk hr
      simp only [lost_append, lost_echoLines, List.mem_append] at hk ⊢
      exact hk.imp_left fun h => queued k h hr
  | @expire s t running new =>
    refine ⟨by simpa using gap_nodup, ?_, ?_, ?_⟩
    · -- a packet whose first timer still runs was not declared lost
      have hs : s ∉ lostBy .timeout log := fun hm =>
        (known s (mem_lost.mpr (.inr hm))).2.elim new (ok.first s t running new).2
      simp only [lostBy_append, lostBy_timeout, ↓reduceIte]
      exact timeout_nodup.append (by simp) (by simpa using hs)
    · intro k hk
      have hk : k ∈ lost log ∨ k = s := by simpa using hk
      rcases hk with hk | rfl
      · obtain ⟨h₁, h₂⟩ := known k hk
        exact ⟨h₁, h₂.imp_right fun h => List.mem_append_left _ h⟩
      · exact ⟨ok.timer_lt k t running, .inr (by simp)⟩
    · intro k hk hr
      have hk : k ∈ σ.pending ∨ k = s := by simpa using hk
      rcases hk with hk | rfl
      · simp [queued k hk hr]
      · simp
  | @giveUp s t running old =>
    refine ⟨by simpa using gap_nodup, by simpa using timeout_nodup, ?_, ?_⟩
    · intro k hk
      obtain ⟨h₁, h₂⟩ := known k (by simpa using hk)
      exact ⟨h₁, h₂.imp_right fun h => List.mem_append_left _ h⟩
    · intro k hk hr
      have hk : k ∈ σ.pending ∨ k = s := by simpa using hk
      rcases hk with hk | rfl
      · simpa using queued k hk hr
      · exact absurd old hr

theorem counted_of_path (h : Path (Step w) Sender.init as σ) : Counted as.flatten σ :=
  (ledger_of_path (J := fun log σ => Acked log σ ∧ Counted log σ) h
    ⟨acked_of_path (w := w) .nil, by simp, by simp, by simp,
      by simp [Sender.init]⟩
    fun _ _ _ _ ok hj hs => ⟨hj.1.step hs, hj.2.step ok hj.1 hs⟩).2

theorem length_le_of_nodup {l : List ℕ} {n : ℕ} (h : l.Nodup) (hlt : ∀ s ∈ l, s < n) :
    l.length ≤ n := by
  have hsub : l ⊆ List.range n := fun s hs => List.mem_range.mpr (hlt s hs)
  simpa using (h.subperm hsub).length_le

theorem Counted.length_le (h : Counted log σ) : (lost log).length ≤ 2 * σ.next := by
  have hg := length_le_of_nodup h.gap_nodup fun s hs => (h.known s (mem_lost.mpr (.inl hs))).1
  have ht := length_le_of_nodup h.timeout_nodup fun s hs => (h.known s (mem_lost.mpr (.inr hs))).1
  rw [length_lost]
  omega

/-- A step counts a number twice exactly when it is an echo whose gap reaches
over a number that is still queued. -/
theorem Counted.nodup_step (ok : σ.Ok w) (h : Counted log σ) (hn : (lost log).Nodup)
    (hs : Step w σ lines σ') :
    (lost (log ++ lines)).Nodup ↔ ∀ s ∈ lostBy .gap lines, s ∉ σ.pending := by
  cases hs with
  | fresh | retry | skip | giveUp => simpa using hn
  | @echo s sent =>
    simp only [lost_append, lost_echoLines, lostBy_echoLines, ↓reduceIte, List.nodup_append, hn,
      σ.gap_nodup s, true_and]
    constructor
    · intro hd k hk hp
      exact hd k (h.queued k hp (Sender.mem_gap.mp hk).2.2.2) k hk rfl
    · rintro hd k hk j hj rfl
      exact (h.known k hk).2.elim (Sender.mem_gap.mp hj).2.2.2 (hd k hj)
  | @expire s t running new =>
    have hs : s ∉ lost log := fun hm => (h.known s hm).2.elim new (ok.first s t running new).2
    refine iff_of_true ?_ (by simp)
    simp only [lost_append, lost_timeout, reduceCtorEq, ↓reduceIte]
    exact hn.append (by simp) (by simpa using hs)

-- ---------------------------------------------------------------------------
-- The laws of a run
-- ---------------------------------------------------------------------------

/-- What the log and the state of every run satisfy. -/
structure Laws (w : ℕ) (log : List (Line τ)) (σ : Sender τ) : Prop where
  ok : σ.Ok w
  copies : Copies log σ
  resolved : Resolved log σ
  queued : Queued log σ
  acked : Acked log σ
  ordered : Ordered log σ
  counted : Counted log σ

theorem laws_of_path (h : Path (Step w) Sender.init as σ) : Laws w as.flatten σ :=
  ⟨ok_of_path h, copies_of_path h, resolved_of_path h, queued_of_path h, acked_of_path h,
    ordered_of_path h, counted_of_path h⟩

end SelectiveRepeat
