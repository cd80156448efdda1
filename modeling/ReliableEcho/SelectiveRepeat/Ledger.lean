import ReliableEcho.SelectiveRepeat.Invariant
import ReliableEcho.Lib.OnceQueue

/-!
# What the log of a run says about its packets

`Copies` counts the transmissions of each packet and ties the running timer to
the latest. `Resolved` says why a packet is resolved. `Queued` is the refinement
of the retransmission queue by a queue that acts once on each element. Each is
proved for one step, and `ledger_of_path` carries it along a run.
-/

namespace SelectiveRepeat

open Runs (Path)

variable {τ : Type} {w : ℕ} {σ σ' : Sender τ} {log lines : List (Line τ)}
  {as : List (List (Line τ))}

theorem ledger_of_path {J : List (Line τ) → Sender τ → Prop} (h : Path (Step w) Sender.init as σ)
    (start : J [] Sender.init)
    (preserved : ∀ log σ lines σ', σ.Ok w → J log σ → Step w σ lines σ' → J (log ++ lines) σ') :
    J as.flatten σ := by
  refine h.invariant (I := fun as σ => J as.flatten σ) start ?_
  intro as σ lines σ' hp ih hs
  simpa using preserved as.flatten σ lines σ' (ok_of_path hp) ih hs

-- ---------------------------------------------------------------------------
-- The transmissions of a packet
-- ---------------------------------------------------------------------------

/-- A packet is sent once before its retransmission and twice after it, and
the timer that runs is that of the latest transmission. -/
structure Copies (log : List (Line τ)) (σ : Sender τ) : Prop where
  unsent : ∀ s, σ.next ≤ s → copies s log = []
  once : ∀ s < σ.next, s ∉ σ.retried → ∃ t, copies s log = [(.first, s, t)] ∧
    ∀ t', σ.timer s = some t' → t' = t
  twice : ∀ s ∈ σ.retried, ∃ t₁ t₂, copies s log = [(.first, s, t₁), (.again, s, t₂)] ∧
    ∀ t', σ.timer s = some t' → t' = t₂

theorem Copies.step (h : σ.Ok w) (hc : Copies log σ) (hs : Step w σ lines σ') :
    Copies (log ++ lines) σ' := by
  obtain ⟨unsent, once, twice⟩ := hc
  cases hs with
  | fresh t idle room =>
    refine ⟨fun s hs => ?_, fun s hs hr => ?_, fun s hs => ?_⟩
    · simp [unsent s (Nat.le_of_succ_le hs), Nat.ne_of_lt hs]
    · rcases Nat.lt_succ_iff_lt_or_eq.mp hs with hs | rfl
      · obtain ⟨t₁, h₁, h₂⟩ := once s hs hr
        exact ⟨t₁, by simp [h₁, Nat.ne_of_gt hs], by simpa [Nat.ne_of_lt hs] using h₂⟩
      · exact ⟨t, by simp [unsent _ (Nat.le_refl _)], by simp⟩
    · have hlt := h.retried_lt s hs
      obtain ⟨t₁, t₂, h₁, h₂⟩ := twice s hs
      exact ⟨t₁, t₂, by simp [h₁, Nat.ne_of_gt hlt], by simpa [Nat.ne_of_lt hlt] using h₂⟩
  | @retry s rest t head new =>
    have hlt : s < σ.next := h.pending_lt s (by simp [head])
    refine ⟨fun k hk => ?_, fun k hk hr => ?_, fun k hk => ?_⟩
    · have hne : s ≠ k := by have : σ.next ≤ k := hk; omega
      simp [unsent k hk, hne]
    · have hne : k ≠ s ∧ k ∉ σ.retried := by simpa using hr
      obtain ⟨t₁, h₁, h₂⟩ := once k hk hne.2
      exact ⟨t₁, by simp [h₁, hne.1.symm], by simpa [hne.1] using h₂⟩
    · rcases Finset.mem_insert.mp hk with rfl | hk
      · obtain ⟨t₁, h₁, -⟩ := once k hlt new
        exact ⟨t₁, t, by simp [h₁], by simp⟩
      · have hne : k ≠ s := fun h => new (h ▸ hk)
        obtain ⟨t₁, t₂, h₁, h₂⟩ := twice k hk
        exact ⟨t₁, t₂, by simp [h₁, hne.symm], by simpa [hne] using h₂⟩
  | skip => exact ⟨by simpa using unsent, by simpa using once, by simpa using twice⟩
  | echo sent =>
    refine ⟨by simpa using unsent, fun k hk hr => ?_, fun k hk => ?_⟩
    · obtain ⟨t₁, h₁, h₂⟩ := once k hk hr
      exact ⟨t₁, by simpa using h₁, by grind⟩
    · obtain ⟨t₁, t₂, h₁, h₂⟩ := twice k hk
      exact ⟨t₁, t₂, by simpa using h₁, by grind⟩
  | expire | giveUp =>
    refine ⟨by simpa using unsent, fun k hk hr => ?_, fun k hk => ?_⟩
    · obtain ⟨t₁, h₁, h₂⟩ := once k hk hr
      exact ⟨t₁, by simpa using h₁, by grind⟩
    · obtain ⟨t₁, t₂, h₁, h₂⟩ := twice k hk
      exact ⟨t₁, t₂, by simpa using h₁, by grind⟩

theorem copies_of_path (h : Path (Step w) Sender.init as σ) : Copies as.flatten σ :=
  ledger_of_path h ⟨fun _ _ => rfl, by simp [Sender.init], by simp [Sender.init]⟩
    fun _ _ _ _ ok hc hs => hc.step ok hs

theorem mem_copies {s : ℕ} {c : Copy} {t : τ} :
    (c, s, t) ∈ copies s log ↔ (c, s, t) ∈ sends log := by
  simp [copies]

theorem mem_retransmitted {s : ℕ} : s ∈ retransmitted log ↔ ∃ t, (.again, s, t) ∈ sends log := by
  simp only [retransmitted, List.mem_map, List.mem_filter, decide_eq_true_eq, Prod.exists]
  constructor
  · rintro ⟨_, _, t, ⟨hm, rfl⟩, rfl⟩
    exact ⟨t, hm⟩
  · rintro ⟨t, hm⟩
    exact ⟨_, _, t, ⟨hm, rfl⟩, rfl⟩

theorem Copies.again (h : Copies log σ) {s : ℕ} {t : τ} (hs : (.again, s, t) ∈ sends log) :
    ∃ t₁, copies s log = [(.first, s, t₁), (.again, s, t)] := by
  have hmem := mem_copies.mpr hs
  by_cases hr : s ∈ σ.retried
  · obtain ⟨t₁, t₂, htwice, -⟩ := h.twice s hr
    have ht : t = t₂ := by simpa [htwice] using hmem
    exact ⟨t₁, ht ▸ htwice⟩
  · rcases Nat.lt_or_ge s σ.next with hlt | hge
    · obtain ⟨t₁, honce, -⟩ := h.once s hlt hr
      simp [honce] at hmem
    · simp [h.unsent s hge] at hmem

-- ---------------------------------------------------------------------------
-- Why a packet is resolved
-- ---------------------------------------------------------------------------

/-- A resolved packet was echoed, or its second timer ran out. -/
structure Resolved (log : List (Line τ)) (σ : Sender τ) : Prop where
  of_echo : ∀ s ∈ echoes log, s ∈ σ.received
  echo_or_gaveUp : ∀ s ∈ σ.received, s ∈ echoes log ∨
    ∃ t, (.again, s, t) ∈ sends log ∧ .timeout t s ∈ log

theorem Resolved.step (hc : Copies log σ) (hr : Resolved log σ) (hs : Step w σ lines σ') :
    Resolved (log ++ lines) σ' := by
  have keep : ∀ s ∈ σ.received, s ∈ echoes (log ++ lines) ∨
      ∃ t, (.again, s, t) ∈ sends (log ++ lines) ∧ .timeout t s ∈ log ++ lines := by
    intro s hs
    rcases hr.echo_or_gaveUp s hs with h | ⟨t, h₁, h₂⟩
    · exact .inl (by simp [h])
    · exact .inr ⟨t, by simp [h₁], by simp [h₂]⟩
  cases hs with
  | fresh | retry | skip => exact ⟨by simpa using hr.of_echo, keep⟩
  | @echo s sent =>
    refine ⟨?_, fun k hk => ?_⟩
    · intro k hk
      simp only [echoes_append, echoes_echoLines, List.mem_append, List.mem_singleton] at hk
      rcases hk with hk | rfl
      · exact Finset.mem_insert_of_mem (hr.of_echo k hk)
      · exact Finset.mem_insert_self _ _
    · rcases Finset.mem_insert.mp hk with rfl | hk
      · exact .inl (by simp)
      · exact keep k hk
  | expire => exact ⟨by simpa using hr.of_echo, keep⟩
  | @giveUp s t running old =>
    refine ⟨?_, fun k hk => ?_⟩
    · intro k hk
      exact Finset.mem_insert_of_mem (hr.of_echo k (by simpa using hk))
    · rcases Finset.mem_insert.mp hk with rfl | hk
      · -- the timer that runs is that of the retransmission
        obtain ⟨t₁, t₂, h₁, h₂⟩ := hc.twice k old
        rw [h₂ t running]
        have hm : (.again, k, t₂) ∈ sends log := mem_copies.mp (by simp [h₁])
        exact .inr ⟨t₂, by simp [hm], by simp⟩
      · exact keep k hk

theorem resolved_of_path (h : Path (Step w) Sender.init as σ) : Resolved as.flatten σ :=
  (ledger_of_path (J := fun log σ => Copies log σ ∧ Resolved log σ) h
    ⟨copies_of_path (w := w) .nil, by simp, by simp [Sender.init]⟩
    fun _ _ _ _ ok hj hs => ⟨hj.1.step ok hs, hj.2.step hj.1 hs⟩).2

-- ---------------------------------------------------------------------------
-- The retransmission queue
-- ---------------------------------------------------------------------------

/-- The queue refines `OnceQueue`: it declares what the log declares and emits
what the log retransmits. -/
def Queued (log : List (Line τ)) (σ : Sender τ) : Prop :=
  ∃ q : OnceQueue ℕ, q.declared = declared log ∧ q.pending = σ.pending ∧
    q.emitted = retransmitted log ∧ ∀ s, s ∈ σ.retried ↔ s ∈ q.emitted

theorem Queued.step (hq : Queued log σ) (hs : Step w σ lines σ') : Queued (log ++ lines) σ' := by
  obtain ⟨q, hd, hp, he, hr⟩ := hq
  cases hs with
  | fresh => exact ⟨q, by simp [hd], hp,
      by simp [he], hr⟩
  | @retry s rest t head new =>
    have hn : s ∉ q.emitted := by rwa [← hr]
    refine ⟨q.emit s rest hn, ?_, rfl, ?_, ?_⟩
    · rw [OnceQueue.declared_emit (hp.trans head)]
      simp [hd]
    · simp [OnceQueue.emit, he]
    · simp [OnceQueue.emit, hr, or_comm]
  | @skip s rest head old =>
    refine ⟨q.skip s rest ((hr s).mp old), ?_, rfl, by simpa [OnceQueue.skip] using he, hr⟩
    rw [OnceQueue.declared_skip (hp.trans head)]
    simpa using hd
  | @echo s sent =>
    exact ⟨q.declare (σ.gap s), by simp [hd], by simp [OnceQueue.declare, hp],
      by simp [OnceQueue.declare, he], hr⟩
  | @expire s | @giveUp s =>
    exact ⟨q.declare [s], by simp [hd],
      by simp [OnceQueue.declare, hp],
      by simp [OnceQueue.declare, he], hr⟩

theorem queued_of_path (h : Path (Step w) Sender.init as σ) : Queued as.flatten σ :=
  ledger_of_path h ⟨.empty, rfl, rfl, rfl, by simp [Sender.init, OnceQueue.empty]⟩
    fun _ _ _ _ _ hq hs => hq.step hs

end SelectiveRepeat
