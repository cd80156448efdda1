import Mathlib.Order.Basic

/-!
# A cell that several writers share

A history lists the values written, the latest first, each with its writer.
When the values only grow, a writer finds its own last value in the cell exactly
if nobody has written another one since.
-/

namespace SharedCell

variable {ι α : Type} [DecidableEq ι] (init : α) (k : ι)

def value : List (ι × α) → α
  | [] => init
  | (_, a) :: _ => a

/-- What `k` wrote last. -/
def own : List (ι × α) → α
  | [] => init
  | (j, a) :: history => if j = k then a else own history

/-- What the others wrote since. -/
def since : List (ι × α) → List α
  | [] => []
  | (j, a) :: history => if j = k then [] else a :: since history

def Grows [LE α] : List (ι × α) → Prop
  | [] => True
  | (_, a) :: history => value init history ≤ a ∧ Grows history

variable {init k} {history : List (ι × α)}

theorem since_eq_nil (h : ∀ e ∈ history, e.1 = k) : since k history = [] := by
  cases history with
  | nil => rfl
  | cons e history => exact if_pos (h e (by simp))

theorem Grows.own_le [Preorder α] (h : Grows init history) :
    own init k history ≤ value init history := by
  induction history with
  | nil => exact le_refl init
  | cons e history ih =>
    obtain ⟨j, a⟩ := e
    rw [own]
    split
    · exact le_refl a
    · exact (ih h.2).trans h.1

theorem Grows.value_eq_own_iff [PartialOrder α] (h : Grows init history) :
    value init history = own init k history ↔ ∀ a ∈ since k history, a = own init k history := by
  induction history with
  | nil => simp [value, own, since]
  | cons e history ih =>
    obtain ⟨j, a⟩ := e
    by_cases hj : j = k
    · simp [value, own, since, hj]
    · simp only [value, own, since, hj, ↓reduceIte, List.forall_mem_cons]
      refine ⟨fun ha => ⟨ha, (ih h.2).mp ?_⟩, And.left⟩
      exact le_antisymm (ha ▸ h.1) h.2.own_le

end SharedCell
