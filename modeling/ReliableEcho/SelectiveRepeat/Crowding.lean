import ReliableEcho.SelectiveRepeat.Invariant
import Mathlib.Algebra.Order.BigOperators.Group.Finset

/-!
# How long the queue gets

A sender is `Honest` while no packet that waits for its retransmission has been
received. Then the timers that run belong to packets that are still missing,
and the queue has at most two entries for each number of the window: it is
empty whenever a fresh packet is sent, so all that is queued was sent before.
-/

namespace SelectiveRepeat

open Cursor (leastMissing_le)

variable {τ : Type} {w : ℕ} {σ σ' : Sender τ} {lines : List (Line τ)}

/-- What waits for its first retransmission is missing. -/
def Sender.Honest (σ : Sender τ) : Prop := ∀ s ∈ σ.pending, s ∉ σ.retried → s ∉ σ.received

structure Sender.Crowded (w : ℕ) (σ : Sender τ) : Prop where
  missing : ∀ s t, σ.timer s = some t → s ∉ σ.received
  twice : ∀ s, σ.pending.count s ≤ 2
  /-- Above the cursor a loss is declared by the first timer alone, -/
  ahead : ∀ s ∉ σ.retried, σ.ack ≤ s → σ.pending.count s ≤ 1
  /-- and after the retransmission by the second alone. -/
  running : ∀ s ∈ σ.retried, σ.timer s ≠ none → σ.pending.count s ≤ 1
  /-- The queue has only numbers of the window there was when it was empty. -/
  since : ∃ b ≤ σ.base, σ.next ≤ b + w ∧ ∀ s ∈ σ.pending, b ≤ s

theorem Sender.Crowded.init : (Sender.init : Sender τ).Crowded w where
  missing := by simp [Sender.init]
  twice := by simp [Sender.init]
  ahead := by simp [Sender.init]
  running := by simp [Sender.init]
  since := ⟨0, Nat.zero_le _, Nat.zero_le _, by simp [Sender.init]⟩

theorem base_le_of_missing {s : ℕ} (h : s ∉ σ.received) : σ.base ≤ s := leastMissing_le h

namespace Sender.Crowded

theorem fresh {t : τ} (ok : σ.Ok w) (h : σ.Crowded w) (idle : σ.pending = [])
    (room : σ.next < σ.base + w) : Crowded w { σ with
      next := σ.next + 1, timer := fun k => if k = σ.next then some t else σ.timer k } where
  missing s u hs := by
    have hnext : σ.next ∉ σ.received := fun hm => Nat.lt_irrefl _ (ok.received_lt _ hm)
    have := h.missing s u
    grind
  twice := h.twice
  ahead := h.ahead
  running s _ _ := by simp [idle]
  since := ⟨σ.base, Nat.le_refl _, room, by simp [idle]⟩

theorem retry {s : ℕ} {rest : List ℕ} {t : τ} (honest : σ.Honest) (h : σ.Crowded w)
    (head : σ.pending = s :: rest) (new : s ∉ σ.retried) :
    Crowded w { σ with pending := rest, retried := insert s σ.retried,
                       timer := fun k => if k = s then some t else σ.timer k } where
  missing k u hk := by
    have := honest s (by simp [head]) new
    have := h.missing k u
    grind
  twice k := (List.sublist_cons_self s rest).count_le k |>.trans (head ▸ h.twice k)
  ahead k hk hack :=
    (List.sublist_cons_self s rest).count_le k |>.trans (head ▸ h.ahead k (by grind) hack)
  running k hk ht := by
    by_cases he : k = s
    · subst he
      have := h.twice k
      rw [head, List.count_cons_self] at this
      exact Nat.le_of_succ_le_succ this
    · exact (List.sublist_cons_self s rest).count_le k |>.trans
        (head ▸ h.running k (by grind) (by simpa [he] using ht))
  since := by
    obtain ⟨b, hb, hnext, hle⟩ := h.since
    exact ⟨b, hb, hnext, fun k hk => hle k (by simp [head, show k ∈ rest from hk])⟩

theorem skip {s : ℕ} {rest : List ℕ} (h : σ.Crowded w) (head : σ.pending = s :: rest) :
    Crowded w { σ with pending := rest } where
  missing := h.missing
  twice k := (List.sublist_cons_self s rest).count_le k |>.trans (head ▸ h.twice k)
  ahead k hk hack :=
    (List.sublist_cons_self s rest).count_le k |>.trans (head ▸ h.ahead k hk hack)
  running k hk ht :=
    (List.sublist_cons_self s rest).count_le k |>.trans (head ▸ h.running k hk ht)
  since := by
    obtain ⟨b, hb, hnext, hle⟩ := h.since
    exact ⟨b, hb, hnext, fun k hk => hle k (by simp [head, show k ∈ rest from hk])⟩

theorem echo {s : ℕ} (h : σ.Crowded w) :
    Crowded w { σ with ack := max σ.ack (s + 1), received := insert s σ.received,
                       pending := σ.pending ++ σ.gap s,
                       timer := fun k => if k = s ∨ k ∈ σ.gap s then none else σ.timer k } where
  missing k u hk := by
    have := h.missing k u
    grind
  twice k := by
    have hgap := List.nodup_iff_count_le_one.mp (σ.gap_nodup s) k
    have htwo := h.twice k
    rw [List.count_append]
    by_cases hk : k ∈ σ.gap s
    · -- a number in the gap was at or above the cursor
      obtain ⟨hack, -, -, hnew⟩ := mem_gap.mp hk
      have := h.ahead k hnew hack
      omega
    · rw [List.count_eq_zero_of_not_mem hk]
      omega
  ahead k hk hack := by
    have hno : k ∉ σ.gap s := fun hg => by
      have := (mem_gap.mp hg).2.1
      have hack : max σ.ack (s + 1) ≤ k := hack
      omega
    rw [List.count_append, List.count_eq_zero_of_not_mem hno]
    exact h.ahead k hk (Nat.le_trans (Nat.le_max_left _ _) hack)
  running k hk ht := by
    have hno : k ∉ σ.gap s := fun hg => (mem_gap.mp hg).2.2.2 hk
    rw [List.count_append, List.count_eq_zero_of_not_mem hno]
    exact h.running k hk (by grind)
  since := by
    obtain ⟨b, hb, hnext, hle⟩ := h.since
    refine ⟨b, Nat.le_trans hb (base_insert σ s), hnext, fun k hk => ?_⟩
    rcases List.mem_append.mp hk with hk | hk
    · exact hle k hk
    · exact Nat.le_trans hb (base_le_of_missing (mem_gap.mp hk).2.2.1)

theorem expire {s : ℕ} {t : τ} (ok : σ.Ok w) (h : σ.Crowded w) (running : σ.timer s = some t)
    (new : s ∉ σ.retried) : Crowded w { σ with
      pending := σ.pending ++ [s], timer := fun k => if k = s then none else σ.timer k } := by
  have hnone : σ.pending.count s = 0 := List.count_eq_zero_of_not_mem (ok.first s t running new).2
  refine ⟨fun k u hk => ?_, fun k => ?_, fun k hk hack => ?_, fun k hk ht => ?_, ?_⟩
  · have := h.missing k u
    grind
  · have := h.twice k
    grind
  · have := h.ahead k hk hack
    grind
  · have := h.running k hk
    grind
  · obtain ⟨b, hb, hnext, hle⟩ := h.since
    refine ⟨b, hb, hnext, fun k hk => ?_⟩
    rcases List.mem_append.mp hk with hk | hk
    · exact hle k hk
    · rw [List.mem_singleton.mp hk]
      exact Nat.le_trans hb (base_le_of_missing (h.missing s t running))

theorem giveUp {s : ℕ} {t : τ} (h : σ.Crowded w) (running : σ.timer s = some t)
    (old : s ∈ σ.retried) : Crowded w { σ with
      received := insert s σ.received, pending := σ.pending ++ [s],
      timer := fun k => if k = s then none else σ.timer k } := by
  have hone := h.running s old (by simp [running])
  refine ⟨fun k u hk => ?_, fun k => ?_, fun k hk hack => ?_, fun k hk ht => ?_, ?_⟩
  · have := h.missing k u
    grind
  · have := h.twice k
    grind
  · have := h.ahead k hk hack
    grind
  · have := h.running k hk
    grind
  · obtain ⟨b, hb, hnext, hle⟩ := h.since
    refine ⟨b, Nat.le_trans hb (base_insert σ s), hnext, fun k hk => ?_⟩
    rcases List.mem_append.mp hk with hk | hk
    · exact hle k hk
    · rw [List.mem_singleton.mp hk]
      exact Nat.le_trans hb (base_le_of_missing (h.missing s t running))

theorem step (ok : σ.Ok w) (honest : σ.Honest) (h : σ.Crowded w) (hs : Step w σ lines σ') :
    σ'.Crowded w := by
  cases hs with
  | fresh t idle room => exact h.fresh ok idle room
  | retry t head new => exact h.retry honest head new
  | skip head old => exact h.skip head
  | echo sent => exact h.echo
  | expire running new => exact h.expire ok running new
  | giveUp running old => exact h.giveUp running old

theorem length_le (ok : σ.Ok w) (h : σ.Crowded w) : σ.pending.length ≤ 2 * w := by
  obtain ⟨b, -, hnext, hle⟩ := h.since
  have hsub : σ.pending.toFinset ⊆ Finset.Ico b (b + w) := by
    intro s hs
    have hs := List.mem_toFinset.mp hs
    have := ok.pending_lt s hs
    exact Finset.mem_Ico.mpr ⟨hle s hs, by omega⟩
  calc σ.pending.length = ∑ s ∈ σ.pending.toFinset, σ.pending.count s :=
        (List.sum_toFinset_count_eq_length _).symm
    _ ≤ σ.pending.toFinset.card * 2 := Finset.sum_le_card_nsmul _ _ _ fun s _ => h.twice s
    _ ≤ (Finset.Ico b (b + w)).card * 2 := Nat.mul_le_mul_right 2 (Finset.card_le_card hsub)
    _ = 2 * w := by rw [Nat.card_Ico, Nat.add_sub_cancel_left, Nat.mul_comm]

theorem timer_mem {s : ℕ} {t : τ} (ok : σ.Ok w) (h : σ.Crowded w) (ht : σ.timer s = some t) :
    s ∈ Finset.Ico σ.base (σ.base + w) := by
  have := ok.timer_lt s t ht
  have := ok.window
  exact Finset.mem_Ico.mpr ⟨base_le_of_missing (h.missing s t ht), by omega⟩

end Sender.Crowded

end SelectiveRepeat
