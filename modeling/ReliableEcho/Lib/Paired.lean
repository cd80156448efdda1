import Mathlib.Data.List.Forall2
import Mathlib.Data.List.Nodup

/-!
# Lists paired element by element

What `List.Forall₂ R as bs` says about one element of `bs`: where it stands in
the list, and that it has a partner in `as`. Distinct partners make distinct
elements.
-/

namespace List.Forall₂

variable {α β γ : Type} {R : α → β → Prop} {f : α → γ} {as : List α} {bs : List β} {b : β} {i : ℕ}

theorem exists_getElem? (h : Forall₂ R as bs) (hb : bs[i]? = some b) :
    ∃ a, as[i]? = some a ∧ R a b := by
  induction h generalizing i with
  | nil => cases hb
  | cons hr _ ih =>
    cases i with
    | zero =>
      cases hb
      exact ⟨_, rfl, hr⟩
    | succ i => exact ih hb

theorem exists_mem (h : Forall₂ R as bs) (hb : b ∈ bs) : ∃ a ∈ as, R a b := by
  obtain ⟨i, hi⟩ := List.mem_iff_getElem?.mp hb
  obtain ⟨a, ha, hab⟩ := h.exists_getElem? hi
  exact ⟨a, List.mem_of_getElem? ha, hab⟩

theorem nodup (h : Forall₂ R as bs) (hn : (as.map f).Nodup)
    (inj : ∀ a a' b, R a b → R a' b → f a = f a') : bs.Nodup := by
  induction h with
  | nil => exact .nil
  | @cons a b as bs hab h ih =>
    rw [List.map_cons, List.nodup_cons] at hn
    refine List.nodup_cons.mpr ⟨fun hb => ?_, ih hn.2⟩
    obtain ⟨a', ha', hab'⟩ := h.exists_mem hb
    exact hn.1 (inj a a' b hab hab' ▸ List.mem_map_of_mem ha')

end List.Forall₂
