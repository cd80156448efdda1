import Mathlib.Data.List.Basic
import Mathlib.Data.List.Perm.Basic

/-!
# A lossy channel that keeps the order

Messages are numbered in the order they are sent. A channel delivers them in
that order and may drop any one in flight, but neither reorders nor
duplicates. `LossyFifo` carries both laws as fields: what arrived, followed by
what is in flight, is in the order of sending, and every message sent has
arrived, is in flight, or was dropped.

Two such channels in series are one: a relay that takes the head of the first
and appends it to the second leaves the concatenation as it was.
-/

structure LossyFifo where
  sent : ℕ
  arrived : List ℕ
  flight : List ℕ
  dropped : List ℕ
  order : (arrived ++ flight).Pairwise (· < ·)
  account : ∀ i, i < sent ↔ i ∈ arrived ∨ i ∈ flight ∨ i ∈ dropped

namespace LossyFifo

def empty : LossyFifo where
  sent := 0
  arrived := []
  flight := []
  dropped := []
  order := by simp
  account := by simp

theorem lt_sent {c : LossyFifo} {i : ℕ} (h : i ∈ c.arrived ++ c.flight) : i < c.sent := by
  rw [c.account]
  rcases List.mem_append.mp h with h | h
  · exact .inl h
  · exact .inr (.inl h)

def push (c : LossyFifo) : LossyFifo where
  sent := c.sent + 1
  arrived := c.arrived
  flight := c.flight ++ [c.sent]
  dropped := c.dropped
  order := by
    rw [← List.append_assoc, List.pairwise_append]
    refine ⟨c.order, by simp, fun i hi j hj => ?_⟩
    rw [List.mem_singleton.mp hj]
    exact lt_sent hi
  account i := by
    have h := c.account i
    simp only [List.mem_append, List.mem_singleton]
    grind

def deliver (c : LossyFifo) (i : ℕ) (rest : List ℕ) (head : c.flight = i :: rest) : LossyFifo where
  sent := c.sent
  arrived := c.arrived ++ [i]
  flight := rest
  dropped := c.dropped
  order := by simpa [head] using c.order
  account j := by
    rw [c.account j, head]
    simp [or_assoc]

def drop (c : LossyFifo) (k : ℕ) (hk : k < c.flight.length) : LossyFifo where
  sent := c.sent
  arrived := c.arrived
  flight := c.flight.eraseIdx k
  dropped := c.dropped ++ [c.flight[k]]
  order := c.order.sublist ((List.Sublist.refl _).append (List.eraseIdx_sublist _ _))
  account i := by
    have hp : c.flight.Perm (c.flight[k] :: c.flight.eraseIdx k) :=
      (List.getElem_cons_eraseIdx_perm hk).symm
    rw [c.account i, hp.mem_iff]
    simp only [List.mem_cons, List.mem_append, List.not_mem_nil, or_false]
    tauto

variable {c : LossyFifo} {i j : ℕ} {rest : List ℕ}

/-- What is at the head of the channel was sent after all that arrived. -/
theorem arrived_lt_head (head : c.flight = i :: rest) (h : j ∈ c.arrived) : j < i := by
  have ho := c.order
  rw [head, List.pairwise_append] at ho
  exact ho.2.2 j h i (by simp)

theorem overtaken (head : c.flight = i :: rest) (hj : j < i) : j ∈ c.arrived ∨ j ∈ c.dropped := by
  have hi : i ∈ c.arrived ++ c.flight := by simp [head]
  have ho := c.order
  rw [head, List.pairwise_append, List.pairwise_cons] at ho
  rcases (c.account j).mp (Nat.lt_trans hj (lt_sent hi)) with h | h | h
  · exact .inl h
  · rw [head] at h
    rcases List.mem_cons.mp h with rfl | h
    · omega
    · have := ho.2.1.1 j h
      omega
  · exact .inr h

theorem arrived_nodup (c : LossyFifo) : c.arrived.Nodup :=
  (List.pairwise_append.mp c.order).1.imp fun h => Nat.ne_of_lt h

/-- A channel that dropped nothing holds all that was sent, in order. -/
theorem complete (h : c.dropped = []) : c.arrived ++ c.flight = List.range c.sent := by
  have hmem : ∀ i, i ∈ c.arrived ++ c.flight ↔ i ∈ List.range c.sent := by
    intro i
    rw [List.mem_append, List.mem_range, c.account, h]
    simp
  have hnodup : (c.arrived ++ c.flight).Nodup := c.order.imp Nat.ne_of_lt
  have hperm := (List.perm_ext_iff_of_nodup hnodup List.nodup_range).mpr hmem
  exact hperm.eq_of_pairwise (fun a b _ _ h₁ h₂ => absurd h₁ (Nat.lt_asymm h₂)) c.order
    List.pairwise_lt_range

theorem arrived_eq_range (h : c.dropped = []) : c.arrived = List.range c.arrived.length := by
  have hc := complete h
  have hle : c.arrived.length ≤ c.sent := by
    have := congrArg List.length hc
    simp only [List.length_append, List.length_range] at this
    omega
  calc c.arrived = (c.arrived ++ c.flight).take c.arrived.length := List.take_left.symm
    _ = List.range c.arrived.length := by rw [hc, List.take_range, Nat.min_eq_left hle]

end LossyFifo
