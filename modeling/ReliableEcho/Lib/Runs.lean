import Mathlib.Data.List.Induction

/-!
# Runs of a machine that takes inputs

A machine is a step function `S → L → Except E S`; an input the machine
cannot take, or one it fails on, is an error. `exec` runs a list of inputs,
`Reachable` is what some list reaches, and `Path` is a run of a labelled
relation with its labels kept.

`Reachable.path` is the refinement rule: a machine whose every step is one
step of a relation between the abstract states, or leaves the abstract state
alone, has the outputs of an abstract path. The guard `G` limits the rule to
the part of a run in which the abstraction is meant to hold.
-/

namespace Runs

theorem bind_ok {x : Except ε α} {f : α → Except ε β} :
    x >>= f = .ok b ↔ ∃ a, x = .ok a ∧ f a = .ok b := by
  cases x <;> simp [bind, Except.bind]

theorem bind_error {x : Except ε α} {f : α → Except ε β} :
    x >>= f = .error e ↔ x = .error e ∨ ∃ a, x = .ok a ∧ f a = .error e := by
  cases x <;> simp [bind, Except.bind]

/-- The outcome of a run, checked by computing it. -/
theorem exists_of_check {x : Except ε α} (p : α → Prop) [DecidablePred p]
    (h : (x.toOption.any fun a => decide (p a)) = true) : ∃ a, x = .ok a ∧ p a := by
  cases x with
  | error e => cases h
  | ok a => exact ⟨a, rfl, of_decide_eq_true h⟩

section
variable {S L E : Type} (step : S → L → Except E S)

def exec : S → List L → Except E S
  | s, [] => .ok s
  | s, l :: ls => step s l >>= fun s' => exec s' ls

def Reachable (s₀ s : S) : Prop := ∃ ls, exec step s₀ ls = .ok s

/-- `P` holds in every state of the run, the first and the last included. -/
def Throughout (P : S → Prop) : S → List L → Prop
  | s, [] => P s
  | s, l :: ls => P s ∧ ∀ s', step s l = .ok s' → Throughout P s' ls

/-- `C` holds of every input of the run in the state it is taken in. -/
def EachStep (C : S → L → Prop) : S → List L → Prop
  | _, [] => True
  | s, l :: ls => C s l ∧ ∀ s', step s l = .ok s' → EachStep C s' ls

end

-- ---------------------------------------------------------------------------
-- Reachable states
-- ---------------------------------------------------------------------------

section
variable {S L E : Type} {step : S → L → Except E S} {s₀ s s' : S} {l : L} {ls : List L}

@[simp] theorem exec_nil : exec step s [] = .ok s := rfl

theorem exec_cons :
    exec step s (l :: ls) = .ok s' ↔ ∃ t, step s l = .ok t ∧ exec step t ls = .ok s' :=
  bind_ok

theorem exec_append {ks : List L} :
    exec step s (ls ++ ks) = .ok s' ↔ ∃ t, exec step s ls = .ok t ∧ exec step t ks = .ok s' := by
  induction ls generalizing s with
  | nil => simp
  | cons l ls ih =>
    simp only [List.cons_append, exec_cons, ih]
    constructor
    · rintro ⟨a, ha, b, hb, h⟩; exact ⟨b, ⟨a, ha, hb⟩, h⟩
    · rintro ⟨b, ⟨a, ha, hb⟩, h⟩; exact ⟨a, ha, b, hb, h⟩

theorem exec_snoc :
    exec step s (ls ++ [l]) = .ok s' ↔ ∃ t, exec step s ls = .ok t ∧ step t l = .ok s' := by
  simp [exec_append, exec_cons]

theorem Reachable.refl : Reachable step s s := ⟨[], rfl⟩

theorem Reachable.tail (h : Reachable step s₀ s) (hs : step s l = .ok s') :
    Reachable step s₀ s' := by
  obtain ⟨ls, hls⟩ := h
  exact ⟨ls ++ [l], exec_snoc.mpr ⟨s, hls, hs⟩⟩

/-- What holds at the start and survives each step holds in every reachable
state; the step may use that it starts in a reachable state. -/
theorem Reachable.invariant {P : S → Prop} (h : Reachable step s₀ s) (start : P s₀)
    (preserved : ∀ s l s', Reachable step s₀ s → P s → step s l = .ok s' → P s') : P s := by
  obtain ⟨ls, hls⟩ := h
  induction ls using List.reverseRecOn generalizing s with
  | nil => cases hls; exact start
  | append_singleton ls l ih =>
    obtain ⟨t, ht, hs⟩ := exec_snoc.mp hls
    exact preserved t l s ⟨ls, ht⟩ (ih ht) hs

/-- What holds of a reachable state and survives each step holds along the run
that goes on from there. -/
theorem Reachable.along {P : S → Prop} (h : Reachable step s₀ s) (hs : exec step s ls = .ok s')
    (start : P s)
    (preserved : ∀ s l s', Reachable step s₀ s → P s → step s l = .ok s' → P s') : P s' := by
  induction ls generalizing s with
  | nil => cases hs; exact start
  | cons l ls ih =>
    obtain ⟨t, ht, hs⟩ := exec_cons.mp hs
    exact ih (h.tail ht) hs (preserved s l t h start ht)

theorem Reachable.append (h : Reachable step s₀ s) (hs : exec step s ls = .ok s') :
    Reachable step s₀ s' := by
  obtain ⟨ks, hks⟩ := h
  exact ⟨ks ++ ls, exec_append.mpr ⟨s, hks, hs⟩⟩

end

section
variable {C L E S M F : Type} {cstep : C → L → Except E C} {c₀ c : C}
  {astep : S → M → Except F S} {s₀ : S}

/-- Forward simulation of machines: a step on one side is a run on the other. -/
theorem Reachable.simulated {R : C → S → Prop} (h : Reachable cstep c₀ c) (start : R c₀ s₀)
    (sim : ∀ c l c' s, Reachable cstep c₀ c → Reachable astep s₀ s → R c s →
      cstep c l = .ok c' → ∃ ms s', exec astep s ms = .ok s' ∧ R c' s') :
    ∃ s, Reachable astep s₀ s ∧ R c s := by
  refine h.invariant (P := fun c => ∃ s, Reachable astep s₀ s ∧ R c s) ⟨s₀, .refl, start⟩ ?_
  rintro c l c' hr ⟨s, hs, hR⟩ hl
  obtain ⟨ms, s', hms, hR'⟩ := sim c l c' s hr hs hR hl
  exact ⟨s', hs.append hms, hR'⟩

end

-- ---------------------------------------------------------------------------
-- Properties of whole runs
-- ---------------------------------------------------------------------------

section
variable {S L E : Type} {step : S → L → Except E S} {s₀ s t : S} {ls : List L} {G : S → Prop}

/-- A guard that no step can establish holds all along a run that ends in it. -/
theorem guard_of_exec (back : ∀ s l s', Reachable step s₀ s → step s l = .ok s' → G s' → G s)
    (hr : Reachable step s₀ s) (h : exec step s ls = .ok t) (ht : G t) : G s := by
  induction ls generalizing s with
  | nil => cases h; exact ht
  | cons l ls ih =>
    obtain ⟨s', hs, h⟩ := exec_cons.mp h
    exact back s l s' hr hs (ih (hr.tail hs) h)

/-- A property of states is kept along a run exactly when each step meets the
condition that decides whether the step keeps it. -/
theorem throughout_iff_eachStep {P : S → Prop} {C : S → L → Prop}
    (back : ∀ s l s', Reachable step s₀ s → step s l = .ok s' → G s' → G s)
    (decides : ∀ s l s', Reachable step s₀ s → step s l = .ok s' → G s' → P s → (P s' ↔ C s l))
    (hr : Reachable step s₀ s) (h : exec step s ls = .ok t) (ht : G t) (hs : P s) :
    Throughout step P s ls ↔ EachStep step C s ls := by
  induction ls generalizing s with
  | nil => simp [Throughout, EachStep, hs]
  | cons l ls ih =>
    obtain ⟨s', hstep, h⟩ := exec_cons.mp h
    have hd := decides s l s' hr hstep (guard_of_exec back (hr.tail hstep) h ht) hs
    have first : Throughout step P s' ls → P s' := by
      cases ls with
      | nil => exact id
      | cons => exact And.left
    simp only [Throughout, EachStep, hs, true_and, hstep, Except.ok.injEq, forall_eq']
    by_cases hp : P s'
    · simp [hd.mp hp, ih (hr.tail hstep) h hp]
    · exact ⟨fun ha => absurd (first ha) hp, fun hc => absurd (hd.mpr hc.1) hp⟩

theorem eachStep_congr {C D : S → L → Prop}
    (back : ∀ s l s', Reachable step s₀ s → step s l = .ok s' → G s' → G s)
    (agree : ∀ s l s', Reachable step s₀ s → step s l = .ok s' → G s' → (C s l ↔ D s l))
    (hr : Reachable step s₀ s) (h : exec step s ls = .ok t) (ht : G t) :
    EachStep step C s ls ↔ EachStep step D s ls := by
  induction ls generalizing s with
  | nil => simp [EachStep]
  | cons l ls ih =>
    obtain ⟨s', hstep, h⟩ := exec_cons.mp h
    have ha := agree s l s' hr hstep (guard_of_exec back (hr.tail hstep) h ht)
    simp only [EachStep, hstep, Except.ok.injEq, forall_eq', ha, ih (hr.tail hstep) h]

/-- Two conditions that agree under an invariant, which the steps keep that
meet them. -/
theorem eachStep_congr_of_invariant {I : S → Prop} {C D : S → L → Prop}
    (agree : ∀ s l, Reachable step s₀ s → I s → (C s l ↔ D s l))
    (keep : ∀ s l s', Reachable step s₀ s → I s → D s l → step s l = .ok s' → I s')
    (hr : Reachable step s₀ s) (hi : I s) : EachStep step C s ls ↔ EachStep step D s ls := by
  induction ls generalizing s with
  | nil => rfl
  | cons l ls ih =>
    rw [EachStep, EachStep, agree s l hr hi]
    exact and_congr_right fun hd => forall₂_congr fun s' hs =>
      ih (hr.tail hs) (keep s l s' hr hi hd hs)

theorem eachStep_congr_of_reachable {C D : S → L → Prop}
    (agree : ∀ s l, Reachable step s₀ s → (C s l ↔ D s l)) (hr : Reachable step s₀ s) :
    EachStep step C s ls ↔ EachStep step D s ls :=
  eachStep_congr_of_invariant (I := fun _ => True) (fun s l hr _ => agree s l hr)
    (fun _ _ _ _ _ _ _ => trivial) hr trivial

theorem exec_ne_error_iff {C : S → L → Prop} {e : E}
    (decides : ∀ s l, step s l = .error e ↔ ¬ C s l) :
    exec step s ls ≠ .error e ↔ EachStep step C s ls := by
  induction ls generalizing s with
  | nil => simp [EachStep]
  | cons l ls ih =>
    rw [ne_eq, exec, bind_error, decides]
    simp only [EachStep, ← ih]
    grind

end

-- ---------------------------------------------------------------------------
-- Labelled paths and refinement
-- ---------------------------------------------------------------------------

inductive Path {S A : Type} (step : S → A → S → Prop) (s₀ : S) : List A → S → Prop
  | nil : Path step s₀ [] s₀
  | snoc : Path step s₀ as s → step s a s' → Path step s₀ (as ++ [a]) s'

theorem Path.invariant {step : S → A → S → Prop} {I : List A → S → Prop}
    (h : Path step s₀ as s) (start : I [] s₀)
    (preserved : ∀ as s a s', Path step s₀ as s → I as s → step s a s' → I (as ++ [a]) s') :
    I as s := by
  induction h with
  | nil => exact start
  | snoc hp hs ih => exact preserved _ _ _ _ hp ih hs

section
variable {C L E S A O : Type} {cstep : C → L → Except E C} {c₀ c : C}
  {astep : S → A → S → Prop} (view : C → S) (out : C → List O) (obs : A → List O)
  (G Inv : C → Prop)

/-- Each machine step is one abstract step, or leaves the view and the output
alone; `Inv` is the machine's own invariant the simulation rests on. -/
theorem Reachable.path (h : Reachable cstep c₀ c) (hg : G c) (start : Inv c₀) (quiet : out c₀ = [])
    (back : ∀ c l c', Reachable cstep c₀ c → cstep c l = .ok c' → G c' → G c)
    (sim : ∀ c l c' as, Reachable cstep c₀ c → Path astep (view c₀) as (view c) →
      out c = as.flatMap obs → Inv c → cstep c l = .ok c' → G c' → Inv c' ∧
        ((view c' = view c ∧ out c' = out c) ∨
          ∃ a, astep (view c) a (view c') ∧ out c' = out c ++ obs a)) :
    Inv c ∧ ∃ as, Path astep (view c₀) as (view c) ∧ out c = as.flatMap obs := by
  refine h.invariant (P := fun c => G c → Inv c ∧ ∃ as, Path astep (view c₀) as (view c) ∧
    out c = as.flatMap obs) (fun _ => ⟨start, [], .nil, by simpa using quiet⟩) ?_ hg
  intro c l c' hr ih hs hg'
  obtain ⟨hi, as, hp, ho⟩ := ih (back c l c' hr hs hg')
  obtain ⟨hi', ⟨hv, ho'⟩ | ⟨a, ha, ho'⟩⟩ := sim c l c' as hr hp ho hi hs hg'
  · exact ⟨hi', as, hv ▸ hp, ho'.trans ho⟩
  · exact ⟨hi', as ++ [a], hp.snoc ha, by simp [ho', ho]⟩

end

end Runs
