import ReliableEcho.SelectiveRepeat.Sender
import Mathlib.Order.Interval.Finset.Nat

/-!
# What every state of the sender satisfies

`Ok` says where each packet stands. Before its retransmission a sent packet
either waits for its first timer, or has been echoed or declared lost; after
it, it waits for its second timer or is resolved. `Ok.step` is the step lemma
and `ok_of_path` the law of whole runs.
-/

namespace SelectiveRepeat

open Cursor (leastMissing leastMissing_le leastMissing_mono)
open Runs (Path)

variable {τ : Type} {w : ℕ} {σ σ' : Sender τ} {lines : List (Line τ)} {as : List (List (Line τ))}

structure Sender.Ok (w : ℕ) (σ : Sender τ) : Prop where
  pending_lt : ∀ s ∈ σ.pending, s < σ.next
  received_lt : ∀ s ∈ σ.received, s < σ.next
  retried_lt : ∀ s ∈ σ.retried, s < σ.next
  timer_lt : ∀ s t, σ.timer s = some t → s < σ.next
  window : σ.next ≤ σ.base + w
  /-- The first timer runs only while nothing is known of the packet. -/
  first : ∀ s t, σ.timer s = some t → s ∉ σ.retried → s ∉ σ.received ∧ s ∉ σ.pending
  /-- A packet whose first timer is gone was echoed or declared lost. -/
  first_gone : ∀ s < σ.next, s ∉ σ.retried → σ.timer s = none → s ∈ σ.received ∨ s ∈ σ.pending
  /-- A packet whose second timer is gone is resolved. -/
  second_gone : ∀ s ∈ σ.retried, σ.timer s = none → s ∈ σ.received
  ack_le : σ.ack ≤ σ.next
  below_ack : ∀ s < σ.ack, s ∈ σ.received ∨ s ∈ σ.retried ∨ s ∈ σ.pending

attribute [grind →] Sender.Ok.pending_lt Sender.Ok.received_lt Sender.Ok.retried_lt
  Sender.Ok.timer_lt Sender.Ok.first Sender.Ok.first_gone Sender.Ok.second_gone Sender.Ok.below_ack

theorem Sender.Ok.init : (Sender.init : Sender τ).Ok w := by
  constructor <;> simp [Sender.init]

theorem base_insert (σ : Sender τ) (s : ℕ) : σ.base ≤ leastMissing (insert s σ.received) :=
  leastMissing_mono (Finset.subset_insert _ _)

theorem Sender.Ok.base_le (h : σ.Ok w) : σ.base ≤ σ.next :=
  leastMissing_le fun hm => Nat.lt_irrefl _ (h.received_lt _ hm)

namespace Sender.Ok

theorem fresh {t : τ} (h : σ.Ok w) (room : σ.next < σ.base + w) (idle : σ.pending = []) :
    Ok w { σ with
      next := σ.next + 1, timer := fun k => if k = σ.next then some t else σ.timer k } where
  pending_lt := by simp [idle]
  received_lt s hs := Nat.lt_succ_of_lt (h.received_lt s hs)
  retried_lt s hs := Nat.lt_succ_of_lt (h.retried_lt s hs)
  timer_lt := by grind
  window := room
  first := by grind
  first_gone := by grind
  second_gone := by grind
  ack_le := Nat.le_succ_of_le h.ack_le
  below_ack := h.below_ack

theorem retry {s : ℕ} {rest : List ℕ} {t : τ} (h : σ.Ok w) (head : σ.pending = s :: rest) :
    Ok w { σ with pending := rest, retried := insert s σ.retried,
                  timer := fun k => if k = s then some t else σ.timer k } where
  pending_lt := by grind
  received_lt := h.received_lt
  retried_lt := by grind
  timer_lt := by
    have hs : s < σ.next := h.pending_lt s (by simp [head])
    grind
  window := h.window
  first := by grind
  first_gone := by grind
  second_gone := by grind
  ack_le := h.ack_le
  below_ack := by grind

theorem skip {s : ℕ} {rest : List ℕ} (h : σ.Ok w) (head : σ.pending = s :: rest)
    (old : s ∈ σ.retried) : Ok w { σ with pending := rest } where
  pending_lt := by grind
  received_lt := h.received_lt
  retried_lt := h.retried_lt
  timer_lt := h.timer_lt
  window := h.window
  first := by grind
  first_gone := by grind
  second_gone := h.second_gone
  ack_le := h.ack_le
  below_ack := by grind

theorem echo {s : ℕ} (h : σ.Ok w) (sent : s < σ.next) :
    Ok w { σ with ack := max σ.ack (s + 1), received := insert s σ.received,
                  pending := σ.pending ++ σ.gap s,
                  timer := fun k => if k = s ∨ k ∈ σ.gap s then none else σ.timer k } where
  pending_lt := by grind [mem_gap]
  received_lt := by grind
  retried_lt := h.retried_lt
  timer_lt := by grind
  window := Nat.le_trans h.window (Nat.add_le_add_right (base_insert σ s) w)
  first := by grind [mem_gap]
  first_gone := by grind
  second_gone := by grind [mem_gap]
  ack_le := by grind
  below_ack := by grind [mem_gap]

theorem expire {s : ℕ} {t : τ} (h : σ.Ok w) (running : σ.timer s = some t) (new : s ∉ σ.retried) :
    Ok w { σ with
      pending := σ.pending ++ [s], timer := fun k => if k = s then none else σ.timer k } where
  pending_lt := by grind
  received_lt := h.received_lt
  retried_lt := h.retried_lt
  timer_lt := by grind
  window := h.window
  first := by grind
  first_gone := by grind
  second_gone := by grind
  ack_le := h.ack_le
  below_ack := by grind

theorem giveUp {s : ℕ} {t : τ} (h : σ.Ok w) (running : σ.timer s = some t) :
    Ok w { σ with received := insert s σ.received, pending := σ.pending ++ [s],
                  timer := fun k => if k = s then none else σ.timer k } where
  pending_lt := by grind
  received_lt := by grind
  retried_lt := h.retried_lt
  timer_lt := by grind
  window := Nat.le_trans h.window (Nat.add_le_add_right (base_insert σ s) w)
  first := by grind
  first_gone := by grind
  second_gone := by grind
  ack_le := h.ack_le
  below_ack := by grind

theorem step (h : σ.Ok w) (hs : Step w σ lines σ') : σ'.Ok w := by
  cases hs with
  | fresh t idle room => exact h.fresh room idle
  | retry t head new => exact h.retry head
  | skip head old => exact h.skip head old
  | echo sent => exact h.echo sent
  | expire running new => exact h.expire running new
  | giveUp running old => exact h.giveUp running

end Sender.Ok

theorem ok_of_path (h : Path (Step w) Sender.init as σ) : σ.Ok w :=
  h.invariant (I := fun _ σ => σ.Ok w) .init fun _ _ _ _ _ ih hs => ih.step hs

-- ---------------------------------------------------------------------------
-- What follows for a packet and for the window
-- ---------------------------------------------------------------------------

/-- No sent packet is forgotten: until it is resolved it has a timer running, or
a retransmission queued that will start one. -/
theorem Sender.Ok.attended {s : ℕ} (h : σ.Ok w) (sent : s < σ.next) (open' : s ∉ σ.received) :
    (∃ t, σ.timer s = some t) ∨ s ∈ σ.pending ∧ s ∉ σ.retried := by
  cases ht : σ.timer s with
  | some t => exact .inl ⟨t, rfl⟩
  | none =>
    have new : s ∉ σ.retried := fun hr => open' (h.second_gone s hr ht)
    exact .inr ⟨(h.first_gone s sent new ht).resolve_left open', new⟩

theorem Sender.Ok.unresolved_le (h : σ.Ok w) :
    ((Finset.range σ.next).filter (· ∉ σ.received)).card ≤ w := by
  have hsub : (Finset.range σ.next).filter (· ∉ σ.received) ⊆ Finset.Ico σ.base σ.next := by
    intro s hs
    simp only [Finset.mem_filter, Finset.mem_range] at hs
    exact Finset.mem_Ico.mpr ⟨leastMissing_le hs.2, hs.1⟩
  have hcard := Finset.card_le_card hsub
  rw [Nat.card_Ico] at hcard
  have := h.window
  omega

end SelectiveRepeat
