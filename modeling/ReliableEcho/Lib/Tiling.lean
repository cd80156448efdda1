import Mathlib.Data.List.Basic

/-!
# Laying a pattern over a list

`overwrite xs k ys` is `xs` with `ys` written over it from position `k` on.
`Tiles pattern period n xs` says that the first `n` elements of `xs` are the
pattern again and again, and `Tiles.overwrite` that writing one more tile, or a
part of one, goes on with it.
-/

namespace Tiling

variable {α : Type} {pattern xs ys : List α} {period i k m n : ℕ}

def overwrite (xs : List α) (k : ℕ) (ys : List α) : List α :=
  xs.take k ++ ys ++ xs.drop (k + ys.length)

theorem length_overwrite (h : k + ys.length ≤ xs.length) :
    (overwrite xs k ys).length = xs.length := by
  simp only [overwrite, List.length_append, List.length_take, List.length_drop]
  omega

theorem getElem?_overwrite (h : k + ys.length ≤ xs.length) : (overwrite xs k ys)[i]? =
    if i < k then xs[i]? else if i < k + ys.length then ys[i - k]? else xs[i]? := by
  have htake : (xs.take k).length = k := List.length_take_of_le (by omega)
  rw [overwrite, List.append_assoc]
  split
  · rw [List.getElem?_append_left (by omega), List.getElem?_take_of_lt ‹_›]
  · rw [List.getElem?_append_right (by omega), htake]
    split
    · rw [List.getElem?_append_left (by omega)]
    · rw [List.getElem?_append_right (by omega), List.getElem?_drop]
      congr 1
      omega

theorem overwrite_all (h : ys.length = xs.length) : overwrite xs 0 ys = ys := by
  simp [overwrite, h]

def Tiles (pattern : List α) (period n : ℕ) (xs : List α) : Prop :=
  ∀ i < n, xs[i]? = pattern[i % period]?

theorem tiles_zero : Tiles pattern period 0 xs := fun _ h => absurd h (Nat.not_lt_zero _)

theorem Tiles.overwrite (h : Tiles pattern period n xs) (hd : period ∣ n) (hm : m ≤ period)
    (hlen : n + m ≤ xs.length) (hp : m ≤ pattern.length) :
    Tiles pattern period (n + m) (overwrite xs n (pattern.take m)) := by
  have htake : (pattern.take m).length = m := List.length_take_of_le hp
  intro i hi
  rw [getElem?_overwrite (by omega), htake]
  split
  · exact h i ‹_›
  · rename_i hge
    obtain ⟨j, rfl⟩ := hd
    have hmod : i % period = i - period * j := by
      rw [← Nat.mod_eq_of_lt (show i - period * j < period by omega),
        ← Nat.add_mul_mod_self_left (i - period * j) period j]
      congr 1
      omega
    rw [List.getElem?_take_of_lt (by omega), hmod]

/-- A pattern that is long enough is laid once. -/
theorem tiles_take (hn : n ≤ period) : Tiles pattern period n (pattern.take n) := by
  intro i hi
  rw [List.getElem?_take_of_lt hi, Nat.mod_eq_of_lt (by omega)]

end Tiling
