import ReliableEcho.SelectiveRepeat.Accounting

/-!
# What the log of a run says about time

`Timeline` orders what a log reports of one packet. Its timer was started by its
latest copy, and the packet was not echoed since. A loss that counts was
declared before any echo of the packet.
-/

namespace SelectiveRepeat

open Runs (Path)

variable {τ : Type} {w : ℕ} {σ σ' : Sender τ} {log lines : List (Line τ)}
  {as : List (List (Line τ))} {s k : ℕ} {t : τ} {c : Copy}

/-- The latest transmission of `s` is in the log with timer `t`, and no echo of
`s` came after it. -/
def Since (log : List (Line τ)) (s : ℕ) (t : τ) : Prop :=
  ∃ before line after c, log = before ++ line :: after ∧ line.copy? = some (c, s, t) ∧
    copies s after = [] ∧ s ∉ echoes after

theorem Since.append (h : Since log s t) (hc : copies s lines = []) (he : s ∉ echoes lines) :
    Since (log ++ lines) s t := by
  obtain ⟨before, line, after, c, rfl, hline, hcopies, hechoes⟩ := h
  refine ⟨before, line, after ++ lines, c, by simp, hline, ?_, ?_⟩
  · rw [copies_append, hcopies, hc, List.nil_append]
  · simp [hechoes, he]

theorem Since.latest {line : Line τ} (h : line.copy? = some (c, s, t)) : Since (log ++ [line]) s t :=
  ⟨log, line, [], c, rfl, h, rfl, by simp⟩

/-- A line that declares a loss that counts comes before the packet's echoes. -/
def Unheard (a b : Line τ) : Prop :=
  ∀ cause s, b = .packetLoss cause s → cause ≠ .giveUp → a ≠ .received s

structure Timeline (log : List (Line τ)) (σ : Sender τ) : Prop where
  since : ∀ s t, σ.timer s = some t → Since log s t
  unheard : log.Pairwise Unheard

theorem unheard_append (h : log.Pairwise Unheard) (hl : lines.Pairwise Unheard)
    (new : ∀ cause s, (cause, s) ∈ losses lines → cause ≠ .giveUp → s ∉ echoes log) :
    (log ++ lines).Pairwise Unheard := by
  refine List.pairwise_append.mpr ⟨h, hl, ?_⟩
  rintro _ ha _ hb cause s rfl hcause rfl
  exact new cause s (mem_losses.mpr hb) hcause (mem_echoes.mpr ha)

theorem unheard_echoLines {gap : List ℕ} {late : Bool} (h : s ∉ gap) :
    (echoLines s gap late : List (Line τ)).Pairwise Unheard := by
  rw [echoLines, List.cons_append, List.pairwise_cons]
  constructor
  · rintro _ hb cause k rfl - hk
    have hks : k = s := by simpa [eq_comm] using hk
    have hmem : (cause, k) ∈ losses (echoLines s gap late : List (Line τ)) :=
      mem_losses.mpr (List.mem_cons_of_mem _ hb)
    rw [losses_echoLines, List.mem_map] at hmem
    obtain ⟨j, hj, he⟩ := hmem
    cases he
    exact h (hks ▸ hj)
  · refine List.pairwise_of_forall_mem_list ?_
    rintro _ ha _ - cause k - - rfl
    cases late <;> simp at ha

theorem Timeline.step (ok : σ.Ok w) (hr : Resolved log σ) (h : Timeline log σ)
    (hs : Step w σ lines σ') : Timeline (log ++ lines) σ' := by
  obtain ⟨since, unheard⟩ := h
  cases hs with
  | fresh t idle room =>
    refine ⟨fun k u hk => ?_, unheard_append unheard (by simp) (by simp)⟩
    by_cases hn : k = σ.next
    · subst hn
      have hu : t = u := by simpa using hk
      exact .latest (by rw [← hu]; rfl)
    · exact (since k u (by simpa [hn] using hk)).append (by simp [Ne.symm hn]) (by simp)
  | @retry s rest t head new =>
    refine ⟨fun k u hk => ?_, unheard_append unheard (by simp) (by simp)⟩
    by_cases hn : k = s
    · subst hn
      have hu : t = u := by simpa using hk
      exact .latest (by rw [← hu]; rfl)
    · exact (since k u (by simpa [hn] using hk)).append (by simp [Ne.symm hn]) (by simp)
  | skip => exact ⟨by simpa using since, by simpa using unheard⟩
  | @echo s sent =>
    refine ⟨fun k u hk => ?_, unheard_append unheard (unheard_echoLines ?_) ?_⟩
    · have hn : ¬ (k = s ∨ k ∈ σ.gap s) := by
        intro hn
        simp [hn] at hk
      have hk : σ.timer k = some u := by simpa [hn] using hk
      exact (since k u hk).append (by simp) (by simpa using fun h => hn (.inl h))
    · exact fun hg => Nat.lt_irrefl _ (Sender.mem_gap.mp hg).2.1
    · intro cause k hk _ hm
      have hg : k ∈ σ.gap s := by
        rw [losses_echoLines, List.mem_map] at hk
        obtain ⟨j, hj, he⟩ := hk
        cases he
        exact hj
      exact (Sender.mem_gap.mp hg).2.2.1 (hr.of_echo k hm)
  | @expire s t running new =>
    refine ⟨fun k u hk => ?_, unheard_append unheard (by simp [Unheard]) ?_⟩
    · have hn : k ≠ s := by
        rintro rfl
        simp at hk
      exact (since k u (by simpa [hn] using hk)).append rfl (by simp)
    · intro cause k hk _ hm
      obtain ⟨-, rfl⟩ : cause = .timeout ∧ k = s := by simpa using hk
      exact (ok.first k t running new).1 (hr.of_echo k hm)
  | @giveUp s t running old =>
    refine ⟨fun k u hk => ?_, unheard_append unheard (by simp [Unheard]) ?_⟩
    · have hn : k ≠ s := by
        rintro rfl
        simp at hk
      exact (since k u (by simpa [hn] using hk)).append rfl (by simp)
    · intro cause k hk hcause
      obtain ⟨rfl, -⟩ : cause = .giveUp ∧ k = s := by simpa using hk
      exact absurd rfl hcause

theorem timeline_of_path (h : Path (Step w) Sender.init as σ) : Timeline as.flatten σ :=
  (ledger_of_path (J := fun log σ => (Copies log σ ∧ Resolved log σ) ∧ Timeline log σ) h
    ⟨⟨copies_of_path (w := w) .nil, resolved_of_path (w := w) .nil⟩, by simp [Sender.init], by simp⟩
    fun _ _ _ _ ok hj hs =>
      ⟨⟨hj.1.1.step ok hs, hj.1.2.step hj.1.1 hs⟩, hj.2.step ok hj.1.2 hs⟩).2

-- ---------------------------------------------------------------------------
-- What waits for its retransmission
-- ---------------------------------------------------------------------------

/-- A packet that waits for its first retransmission has been echoed exactly if
its echo came after the packet was declared lost. -/
theorem Timeline.notMem_received_iff (h : Timeline log σ) (hl : Laws w log σ) (hp : s ∈ σ.pending)
    (hn : s ∉ σ.retried) : s ∉ σ.received ↔
      ∀ before cause after, log = before ++ .packetLoss cause s :: after → s ∉ echoes after := by
  constructor
  · rintro hr before cause after rfl he
    refine hr (hl.resolved.of_echo s (mem_echoes.mpr ?_))
    exact List.mem_append_right _ (List.mem_cons_of_mem _ (mem_echoes.mp he))
  · intro hafter hr
    -- it was declared lost for a reason that counts
    obtain ⟨cause, hmem, hcause⟩ : ∃ cause, Line.packetLoss cause s ∈ log ∧ cause ≠ .giveUp := by
      have hlost := hl.counted.queued s hp hn
      simp only [lost, List.mem_map, List.mem_filter, decide_eq_true_eq, Prod.exists] at hlost
      obtain ⟨cause, k, ⟨hm, hc⟩, rfl⟩ := hlost
      exact ⟨cause, mem_losses.mp hm, hc⟩
    obtain ⟨before, after, rfl⟩ := List.append_of_mem hmem
    have hbefore : Line.received s ∉ before := fun he =>
      (List.pairwise_append.mp h.unheard).2.2 _ he _ (List.mem_cons_self ..) cause s rfl hcause rfl
    rcases hl.resolved.echo_or_gaveUp s hr with he | ⟨t, ht, -⟩
    · rcases List.mem_append.mp (mem_echoes.mp he) with he | he
      · exact hbefore he
      · have he : Line.received s ∈ after := by simpa using he
        exact hafter before cause after rfl (mem_echoes.mpr he)
    · obtain ⟨q, -, -, hq, hretried⟩ := hl.queued
      exact hn ((hretried s).mpr (hq ▸ mem_retransmitted.mpr ⟨t, ht⟩))

end SelectiveRepeat
