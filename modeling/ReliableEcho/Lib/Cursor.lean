import Mathlib.Data.Finset.Basic
import Mathlib.Data.Fintype.EquivFin
import Mathlib.Data.Nat.Find
import Mathlib.Logic.Function.Iterate

/-!
# A cursor that skips what a set already holds

`whileHit hit next` is the loop `while (hit x) x = next x`, with fuel. It
terminates from `x` exactly when some iterate of `next` is not hit
(`whileHit_terminates`), and its result is the first such iterate.

`leastMissing S` is the least natural number not in the finite set `S`, which
is where a cursor that counts up over `S` stops.
-/

namespace Cursor

section
variable {α : Type} (hit : α → Bool) (next : α → α)

def whileHit : ℕ → α → Option α
  | 0, _ => none
  | fuel + 1, x => if hit x then whileHit fuel (next x) else some x

end

section
variable {α : Type} {hit : α → Bool} {next : α → α} {fuel n : ℕ} {x y z : α}

theorem whileHit_eq_none :
    whileHit hit next fuel x = none ↔ ∀ n < fuel, hit (next^[n] x) = true := by
  induction fuel generalizing x with
  | zero => simp [whileHit]
  | succ fuel ih =>
    unfold whileHit
    split
    · rename_i hx
      rw [ih]
      constructor
      · intro h n hn
        cases n with
        | zero => exact hx
        | succ n => exact h n (by omega)
      · intro h n hn
        exact h (n + 1) (by omega)
    · rename_i hx
      simp only [reduceCtorEq, false_iff]
      exact fun h => hx (h 0 (by omega))

/-- The loop stops at the first iterate that is not hit. -/
theorem whileHit_eq_some (before : ∀ k < n, hit (next^[k] x) = true)
    (stop : hit (next^[n] x) = false) (hf : n < fuel) :
    whileHit hit next fuel x = some (next^[n] x) := by
  induction n generalizing fuel x with
  | zero =>
    obtain ⟨fuel, rfl⟩ := Nat.exists_eq_succ_of_ne_zero (by omega : fuel ≠ 0)
    have stop : hit x = false := stop
    simp [whileHit, stop]
  | succ n ih =>
    obtain ⟨fuel, rfl⟩ := Nat.exists_eq_succ_of_ne_zero (by omega : fuel ≠ 0)
    have hx : hit x = true := before 0 (by omega)
    simp only [whileHit, hx, ↓reduceIte, Function.iterate_succ_apply]
    exact ih (fun k hk => before (k + 1) (by omega)) stop (by omega)

theorem whileHit_terminates :
    (∃ fuel, whileHit hit next fuel x ≠ none) ↔ ∃ n, hit (next^[n] x) = false := by
  constructor
  · rintro ⟨fuel, h⟩
    simp only [ne_eq, whileHit_eq_none, not_forall, Bool.not_eq_true] at h
    obtain ⟨n, _, hn⟩ := h
    exact ⟨n, hn⟩
  · rintro ⟨n, hn⟩
    refine ⟨n + 1, fun h => ?_⟩
    rw [whileHit_eq_none.mp h n (by omega)] at hn
    cases hn

/-- The loop stops at `y`, the first iterate of `next` from `x` that is not hit. -/
def StopsAt (hit : α → Bool) (next : α → α) (x y : α) : Prop :=
  ∃ n, y = next^[n] x ∧ hit y = false ∧ ∀ k < n, hit (next^[k] x) = true

theorem stopsAt_of_whileHit (h : whileHit hit next fuel x = some y) : StopsAt hit next x y := by
  induction fuel generalizing x with
  | zero => cases h
  | succ fuel ih =>
    unfold whileHit at h
    split at h
    · rename_i hx
      obtain ⟨n, rfl, hy, before⟩ := ih h
      refine ⟨n + 1, rfl, hy, fun k hk => ?_⟩
      cases k with
      | zero => exact hx
      | succ k => exact before k (by omega)
    · rename_i hx
      cases h
      exact ⟨0, rfl, by simpa using hx, fun k hk => absurd hk (Nat.not_lt_zero k)⟩

theorem StopsAt.unique (h : StopsAt hit next x y) (h' : StopsAt hit next x z) : y = z := by
  obtain ⟨n, rfl, hy, before⟩ := h
  obtain ⟨n', rfl, hz, before'⟩ := h'
  rcases Nat.lt_trichotomy n n' with hn | rfl | hn
  · rw [before' n hn] at hy
    cases hy
  · rfl
  · rw [before n' hn] at hz
    cases hz

/-- A loop that hits less stops on the way of one that hits more. -/
theorem StopsAt.trans {hit' : α → Bool} (h : StopsAt hit next x y) (h' : StopsAt hit' next y z)
    (mono : ∀ a, hit a = true → hit' a = true) : StopsAt hit' next x z := by
  obtain ⟨n, rfl, -, before⟩ := h
  obtain ⟨n', rfl, hz, before'⟩ := h'
  refine ⟨n' + n, (Function.iterate_add_apply ..).symm, hz, fun k hk => ?_⟩
  rcases Nat.lt_or_ge k n with hkn | hkn
  · exact mono _ (before k hkn)
  · have := before' (k - n) (by omega)
    rwa [← Function.iterate_add_apply, Nat.sub_add_cancel hkn] at this

end

-- ---------------------------------------------------------------------------
-- The least number a set misses
-- ---------------------------------------------------------------------------

def leastMissing (S : Finset ℕ) : ℕ := Nat.find (Infinite.exists_notMem_finset S)

variable {S T : Finset ℕ} {n k : ℕ}

theorem leastMissing_notMem (S : Finset ℕ) : leastMissing S ∉ S :=
  Nat.find_spec (Infinite.exists_notMem_finset S)

theorem mem_of_lt_leastMissing (h : k < leastMissing S) : k ∈ S := by
  simpa using Nat.find_min (Infinite.exists_notMem_finset S) h

theorem leastMissing_le (h : n ∉ S) : leastMissing S ≤ n := Nat.find_min' _ h

theorem eq_leastMissing (out : n ∉ S) (below : ∀ k < n, k ∈ S) : n = leastMissing S := by
  refine Nat.le_antisymm ?_ (leastMissing_le out)
  by_contra h
  exact leastMissing_notMem S (below _ (by omega))

theorem leastMissing_mono (h : S ⊆ T) : leastMissing S ≤ leastMissing T :=
  leastMissing_le fun hm => leastMissing_notMem T (h hm)

@[simp] theorem leastMissing_empty : leastMissing ∅ = 0 := by
  rw [← eq_leastMissing (n := 0) (by simp) (by simp)]

end Cursor
