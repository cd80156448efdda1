import Mathlib.Data.List.Infix
import Mathlib.Data.List.Basic

/-!
# Lines of text

A line is a list of characters. `grep` keeps the lines that contain a fixed
pattern, `deleteFirst` takes its first occurrence out of a line, and `words`
splits a line at blanks.
-/

namespace Text

variable {α : Type} {pattern rest : List α}

section
variable [DecidableEq α]

def grep (pattern : List α) (lines : List (List α)) : List (List α) :=
  lines.filter fun line => pattern <:+: line

def deleteFirst (pattern : List α) : List α → List α
  | [] => []
  | a :: line =>
    if pattern <+: a :: line then (a :: line).drop pattern.length
    else a :: deleteFirst pattern line

def words (blank : α → Bool) (line : List α) : List (List α) :=
  (line.splitOnP blank).filter (· ≠ [])

theorem deleteFirst_append (hp : pattern ≠ []) : deleteFirst pattern (pattern ++ rest) = rest := by
  obtain ⟨a, p, rfl⟩ := List.exists_cons_of_ne_nil hp
  have hprefix : a :: p <+: a :: (p ++ rest) := List.prefix_append (a :: p) rest
  rw [List.cons_append, deleteFirst, if_pos hprefix, ← List.cons_append, List.drop_left]

end

/-- A word, a blank and another word. -/
theorem words_pair {blank : α → Bool} {first second : List α} {sep : α} (hsep : blank sep = true)
    (hfirst : ∀ a ∈ first, blank a = false) (hsecond : ∀ a ∈ second, blank a = false)
    (hf : first ≠ []) (hs : second ≠ []) :
    words blank (first ++ sep :: second) = [first, second] := by
  rw [words, List.splitOnP_append_cons_of_forall_mem hfirst sep hsep,
    List.splitOnP_eq_singleton hsecond]
  simp [hf, hs]

/-- A mark that occurs once tells where a pattern with the mark must lie. -/
theorem suffix_of_marked_infix {mark : α} {before after before' after' : List α}
    (hb : mark ∉ before') (ha : mark ∉ after')
    (h : before ++ mark :: after <:+: before' ++ mark :: after') : before <:+ before' := by
  obtain ⟨s, t, hst⟩ := h
  have heq : before' ++ mark :: after' = (s ++ before) ++ mark :: (after ++ t) := by
    simpa using hst.symm
  obtain ⟨he, -, -⟩ := (List.append_cons_inj_of_notMem hb ha).mp heq
  exact ⟨s, he.symm⟩

end Text
