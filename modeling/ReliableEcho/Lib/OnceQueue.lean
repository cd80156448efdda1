import Mathlib.Data.List.Nodup

/-!
# A queue that acts once on each element

Elements are declared into a queue and served from its head in order. Serving
an element emits it, unless it was emitted before, in which case the entry is
used up silently. `OnceQueue` carries the law of such a queue as a field: what
was emitted is what was served, with the repetitions removed.
-/

structure OnceQueue (α : Type) [BEq α] where
  served : List α
  pending : List α
  emitted : List α
  once : emitted = served.eraseDups

namespace OnceQueue

section
variable {α : Type} [BEq α]

/-- Everything declared so far, in order. -/
def declared (q : OnceQueue α) : List α := q.served ++ q.pending

def empty : OnceQueue α := ⟨[], [], [], rfl⟩

def declare (q : OnceQueue α) (as : List α) : OnceQueue α := { q with pending := q.pending ++ as }

@[simp] theorem declared_declare (q : OnceQueue α) (as : List α) :
    (q.declare as).declared = q.declared ++ as := by
  simp [declared, declare]

end

theorem nodup_eraseDups [BEq α] [LawfulBEq α] : (l : List α) → l.eraseDups.Nodup
  | [] => by simp
  | a :: as => by
    rw [List.eraseDups_cons, List.nodup_cons]
    exact ⟨by simp [List.mem_eraseDups], nodup_eraseDups _⟩
  termination_by l => l.length
  decreasing_by exact Nat.lt_succ_of_le (List.length_filter_le _ _)

variable {α : Type} [BEq α] [LawfulBEq α]

def emit (q : OnceQueue α) (a : α) (rest : List α) (new : a ∉ q.emitted) : OnceQueue α where
  served := q.served ++ [a]
  pending := rest
  emitted := q.emitted ++ [a]
  once := by
    have hs : a ∉ q.served := by rwa [q.once, List.mem_eraseDups] at new
    simp [List.eraseDups_append, q.once, List.removeAll, List.eraseDups_cons, hs]

def skip (q : OnceQueue α) (a : α) (rest : List α) (old : a ∈ q.emitted) : OnceQueue α where
  served := q.served ++ [a]
  pending := rest
  emitted := q.emitted
  once := by
    have hs : a ∈ q.served := by rwa [q.once, List.mem_eraseDups] at old
    simp [List.eraseDups_append, q.once, List.removeAll, hs]

variable {q : OnceQueue α} {a : α} {rest : List α}

theorem declared_emit (h : q.pending = a :: rest) (new : a ∉ q.emitted) :
    (q.emit a rest new).declared = q.declared := by
  simp [declared, emit, h]

theorem declared_skip (h : q.pending = a :: rest) (old : a ∈ q.emitted) :
    (q.skip a rest old).declared = q.declared := by
  simp [declared, skip, h]

theorem emitted_nodup (q : OnceQueue α) : q.emitted.Nodup := by
  rw [q.once]
  exact nodup_eraseDups _

theorem emitted_subset (q : OnceQueue α) : q.emitted ⊆ q.declared := by
  intro a ha
  rw [q.once, List.mem_eraseDups] at ha
  exact List.mem_append_left _ ha

/-- A declaration that was served has been emitted: none is dropped. -/
theorem declared_emitted_or_pending (ha : a ∈ q.declared) : a ∈ q.emitted ∨ a ∈ q.pending := by
  rw [q.once, List.mem_eraseDups]
  exact List.mem_append.mp ha

end OnceQueue
