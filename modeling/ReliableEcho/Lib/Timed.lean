import ReliableEcho.Lib.Runs
import Mathlib.Data.Finset.Basic

/-!
# A machine with a clock

Some items of a machine's state are dated: an event that is going to run, a
message that is going to arrive. `Timed` adds a clock and the date of each
item. The clock never passes an item that is still there, and an input that
runs an item does so at its date. A new item is dated as far ahead as the
machine allows it.

A run with the clock is a run of the machine (`Reachable.untimed`), so every
law of the machine holds of it. `Paced` and `Regular` are the rules for a tick,
an item that schedules its own successor. Where every step uses up some work
that is bounded by the time, the steps until that time are bounded
(`Reachable.length_le`), and a machine that always has a next step goes past it
(`Reachable.passes`).
-/

structure Timed (S ι : Type) where
  state : S
  now : ℕ
  due : ι → ℕ

/-- What the clock has to know about a machine. -/
structure Clocked (S L E ι : Type) where
  step : S → L → Except E S
  /-- The items that hold the clock back. -/
  live : S → Finset ι
  /-- How far ahead a new item is dated. -/
  allowance : S → ι → ℕ
  /-- The item that an input runs. -/
  runs : L → Option ι
  /-- The order of two items with the same date. -/
  precedes : ι → ι → Bool
  /-- The error of an input that comes at the wrong time. -/
  untimely : E

namespace Clocked

variable {S L E ι : Type} [DecidableEq ι]

section
variable (K : Clocked S L E ι)

/-- Input `l` may be taken at `t`: no item is passed by, and the item it runs is
the first of those due. -/
def Permits (x : Timed S ι) (t : ℕ) (l : L) : Prop :=
  x.now ≤ t ∧ (∀ a ∈ K.live x.state, t ≤ x.due a) ∧
    ∀ a ∈ K.runs l, t = x.due a ∧ ∀ b ∈ K.live x.state, x.due b = t → K.precedes b a = false

instance (x : Timed S ι) (t : ℕ) (l : L) : Decidable (K.Permits x t l) := by
  unfold Permits
  infer_instance

def redate (s s' : S) (t : ℕ) (due : ι → ℕ) (a : ι) : ℕ :=
  if a ∈ K.live s' ∧ a ∉ K.live s then t + K.allowance s' a else due a

def timedStep (x : Timed S ι) : ℕ × L → Except E (Timed S ι)
  | (t, l) =>
    if K.Permits x t l then do
      let s ← K.step x.state l
      .ok ⟨s, t, K.redate x.state s t x.due⟩
    else .error K.untimely

abbrev Reachable (x₀ x : Timed S ι) : Prop := Runs.Reachable K.timedStep x₀ x

end

variable {K : Clocked S L E ι} {x x' x₀ : Timed S ι} {s s' : S} {t d : ℕ} {l : L} {a : ι}
  {due : ι → ℕ}

theorem timedStep_ok : K.timedStep x (t, l) = .ok x' ↔ K.Permits x t l ∧
    ∃ s, K.step x.state l = .ok s ∧ x' = ⟨s, t, K.redate x.state s t x.due⟩ := by
  by_cases hp : K.Permits x t l
  · rw [timedStep, if_pos hp, Runs.bind_ok]
    simp only [hp, true_and]
    exact exists_congr fun s => and_congr_right fun _ =>
      ⟨fun h => (Except.ok.inj h).symm, fun h => congrArg _ h.symm⟩
  · simp [timedStep, hp]

theorem redate_new (hs' : a ∈ K.live s') (hs : a ∉ K.live s) :
    K.redate s s' t due a = t + K.allowance s' a :=
  if_pos ⟨hs', hs⟩

theorem redate_old (h : a ∈ K.live s' → a ∈ K.live s) : K.redate s s' t due a = due a :=
  if_neg fun hnew => hnew.2 (h hnew.1)

-- ---------------------------------------------------------------------------
-- Runs
-- ---------------------------------------------------------------------------

/-- The clock only chooses among the runs of the machine. -/
theorem Reachable.untimed (h : K.Reachable x₀ x) : Runs.Reachable K.step x₀.state x.state := by
  refine h.invariant (P := fun x => Runs.Reachable K.step x₀.state x.state) .refl ?_
  rintro x ⟨t, l⟩ x' - hr hs
  obtain ⟨-, s, hstep, rfl⟩ := timedStep_ok.mp hs
  exact hr.tail hstep

def Punctual (K : Clocked S L E ι) (x : Timed S ι) : Prop := ∀ a ∈ K.live x.state, x.now ≤ x.due a

theorem Punctual.step (hs : K.timedStep x (t, l) = .ok x') : K.Punctual x' := by
  obtain ⟨⟨-, hpast, -⟩, s, -, rfl⟩ := timedStep_ok.mp hs
  intro a ha
  by_cases hold : a ∈ K.live x.state
  · exact (hpast a hold).trans_eq (redate_old fun _ => hold).symm
  · exact (Nat.le_add_right t _).trans_eq (redate_new ha hold).symm

theorem Reachable.punctual (h : K.Reachable x₀ x) (h₀ : K.Punctual x₀) : K.Punctual x :=
  h.invariant h₀ fun _ _ _ _ _ hs => Punctual.step hs

theorem Reachable.now_le (h : K.Reachable x₀ x) : x₀.now ≤ x.now := by
  refine h.invariant (P := fun x => x₀.now ≤ x.now) (Nat.le_refl _) ?_
  rintro x ⟨t, l⟩ x' - hle hs
  obtain ⟨⟨hnow, -⟩, s, -, rfl⟩ := timedStep_ok.mp hs
  exact hle.trans hnow

-- ---------------------------------------------------------------------------
-- Ticks
-- ---------------------------------------------------------------------------

/-- In a step from `s` the tick `item` is left as it was, or it is run: then it
counts once at most, and its successor is new and dated `d` ahead. -/
def TickStep (K : Clocked S L E ι) (item : S → Option ι) (count : S → ℕ) (d : ℕ) (s : S) (l : L)
    (s' : S) : Prop :=
  (count s' = count s ∧ ∀ a, item s' = some a → item s = some a) ∨
  (∃ a, item s = some a ∧ K.runs l = some a ∧ count s' ≤ count s + 1 ∧
    ∀ b, item s' = some b → b ∉ K.live s ∧ K.allowance s' b = d)

/-- Since the time `since`, when the count was `base`, the tick has not counted
more often than once in `d`. -/
def Paced (item : S → Option ι) (count : S → ℕ) (d since base : ℕ) (x : Timed S ι) : Prop :=
  count x.state * d + since ≤ base * d + x.now + d ∧
    ∀ a, item x.state = some a → count x.state * d + since ≤ base * d + x.due a

/-- The tick has run at `since` and every `d` after. -/
def Regular (item : S → Option ι) (count : S → ℕ) (d since : ℕ) (x : Timed S ι) : Prop :=
  since + count x.state * d ≤ x.now + d ∧
    ∀ a, item x.state = some a → x.due a = since + count x.state * d

section
variable {item : S → Option ι} {count : S → ℕ} {since base : ℕ}

omit [DecidableEq ι] in
theorem Paced.now (hp : ∀ a, item x.state = some a → x.now ≤ x.due a) :
    Paced item count d x.now (count x.state) x :=
  ⟨by omega, fun a ha => Nat.add_le_add_left (hp a ha) _⟩

variable (live : ∀ s a, item s = some a → a ∈ K.live s)
include live

theorem TickStep.dated (ht : K.TickStep item count d x.state l x'.state)
    (hs : K.timedStep x (t, l) = .ok x') :
    (count x'.state = count x.state ∧
      ∀ a, item x'.state = some a → item x.state = some a ∧ x'.due a = x.due a) ∨
    (∃ a, item x.state = some a ∧ K.runs l = some a ∧ x'.now = x.due a ∧
      count x'.state ≤ count x.state + 1 ∧
      ∀ b, item x'.state = some b → x'.due b = x'.now + d) := by
  obtain ⟨⟨-, -, hruns⟩, s, -, rfl⟩ := timedStep_ok.mp hs
  rcases ht with ⟨hsame, hitem⟩ | ⟨a, ha, hrun, hcount, hnext⟩
  · exact .inl ⟨hsame, fun a ha => ⟨hitem a ha, redate_old fun _ => live _ _ (hitem a ha)⟩⟩
  · refine .inr ⟨a, ha, hrun, (hruns a hrun).1, hcount, fun b hb => ?_⟩
    obtain ⟨hnew, hallow⟩ := hnext b hb
    dsimp only
    rw [redate_new (live s b hb) hnew, hallow]

theorem Paced.step (h : Paced item count d since base x) (hs : K.timedStep x (t, l) = .ok x')
    (ht : K.TickStep item count d x.state l x'.state) : Paced item count d since base x' := by
  obtain ⟨hrate, hdue⟩ := h
  obtain ⟨⟨hnow, -⟩, -⟩ := timedStep_ok.mp hs
  have htime : x'.now = t := by
    obtain ⟨-, s, -, rfl⟩ := timedStep_ok.mp hs
    rfl
  rcases ht.dated live hs with ⟨hsame, hitem⟩ | ⟨a, ha, -, hran, hcount, hnext⟩
  · rw [Paced, hsame]
    refine ⟨by omega, fun a ha => ?_⟩
    obtain ⟨hold, hdate⟩ := hitem a ha
    exact (hdue a hold).trans_eq (congrArg _ hdate.symm)
  · have hle : count x'.state * d ≤ count x.state * d + d := by
      rw [← Nat.succ_mul]
      exact Nat.mul_le_mul_right d hcount
    have hbound := hdue a ha
    refine ⟨by omega, fun b hb => ?_⟩
    rw [hnext b hb]
    omega

/-- In a stretch of a run a tick counts at most once in `d`, and once more. -/
theorem Paced.stretch {ls : List (ℕ × L)} {I : S → Prop}
    (ticks : ∀ s l s', I s → K.step s l = .ok s' → K.TickStep item count d s l s')
    (keep : ∀ s l s', I s → K.step s l = .ok s' → I s')
    (h : Paced item count d since base x) (hi : I x.state)
    (hrun : Runs.exec K.timedStep x ls = .ok x') : Paced item count d since base x' := by
  refine (Runs.Reachable.refl.along (P := fun x => Paced item count d since base x ∧ I x.state)
    hrun ⟨h, hi⟩ ?_).1
  rintro x ⟨t, l⟩ x' - ⟨h, hi⟩ hs
  obtain ⟨-, s, hstep, rfl⟩ := timedStep_ok.mp hs
  exact ⟨h.step live hs (ticks _ _ _ hi hstep), keep _ _ _ hi hstep⟩

theorem Regular.step (h : Regular item count d since x) (hs : K.timedStep x (t, l) = .ok x')
    (ht : K.TickStep item count d x.state l x'.state)
    (counts : ∀ a, item x.state = some a → K.runs l = some a →
      count x'.state = count x.state + 1) : Regular item count d since x' := by
  obtain ⟨hpast, hdue⟩ := h
  rcases ht.dated live hs with ⟨hsame, hitem⟩ | ⟨a, ha, hrun, hran, -, hnext⟩
  · obtain ⟨⟨hnow, -⟩, s, -, rfl⟩ := timedStep_ok.mp hs
    refine ⟨?_, fun b hb => ?_⟩
    · rw [hsame]
      exact hpast.trans (Nat.add_le_add_right hnow d)
    · obtain ⟨hold, hdate⟩ := hitem b hb
      rw [hdate, hsame]
      exact hdue b hold
  · have hnext' : since + count x'.state * d = x'.now + d := by
      rw [counts a ha hrun, Nat.succ_mul, hran, hdue a ha, Nat.add_assoc]
    exact ⟨hnext'.le, fun b hb => (hnext b hb).trans hnext'.symm⟩

end

-- ---------------------------------------------------------------------------
-- Output
-- ---------------------------------------------------------------------------

section
variable {O : Type}

/-- What a run adds to a list that only grows, each entry with its date. -/
def outputs (K : Clocked S L E ι) (out : S → List O) : Timed S ι → List (ℕ × L) → List (ℕ × O)
  | _, [] => []
  | x, (t, l) :: ls =>
    match K.timedStep x (t, l) with
    | .error _ => []
    | .ok x' => ((out x'.state).drop (out x.state).length).map (t, ·) ++ outputs K out x' ls

/-- If each entry comes at the date of its place, so do all of a run. -/
theorem outputs_eq (out : S → List O) (date : ℕ → ℕ) {ls : List (ℕ × L)}
    (dated : ∀ x t l x', K.Reachable x₀ x → K.timedStep x (t, l) = .ok x' →
      out x'.state = out x.state ∨
      ∃ o, out x'.state = out x.state ++ [o] ∧ t = date (out x.state).length)
    (h : K.Reachable x₀ x) (hrun : Runs.exec K.timedStep x ls = .ok x') :
    ∃ new, out x'.state = out x.state ++ new ∧
      K.outputs out x ls = (new.zipIdx (out x.state).length).map fun (o, k) => (date k, o) := by
  induction ls generalizing x with
  | nil =>
    cases hrun
    exact ⟨[], by simp, rfl⟩
  | cons l ls ih =>
    obtain ⟨t, l⟩ := l
    obtain ⟨y, hy, hrun⟩ := Runs.exec_cons.mp hrun
    obtain ⟨new, hnew, heq⟩ := ih (Runs.Reachable.tail h hy) hrun
    rcases dated x t l y h hy with hsame | ⟨o, ho, ht⟩
    · refine ⟨new, by rw [hnew, hsame], ?_⟩
      simp [outputs, hy, heq, hsame]
    · refine ⟨o :: new, by simp [hnew, ho], ?_⟩
      simp [outputs, hy, heq, ho, ← ht]

end

-- ---------------------------------------------------------------------------
-- Work
-- ---------------------------------------------------------------------------

/-- How often a tick of period `d`, next due at `u`, can still run until `T`. -/
def ticksLeft (T d : ℕ) (u : Option ℕ) : ℕ := u.elim 0 fun u => (T + d - u) / d

theorem ticksLeft_kept {T : ℕ} {u u' : Option ℕ} (h : ∀ v ∈ u', v ∈ u) :
    ticksLeft T d u' ≤ ticksLeft T d u := by
  cases u' with
  | none => exact Nat.zero_le _
  | some v => rw [h v rfl]

theorem ticksLeft_some {T : ℕ} (hd : 0 < d) (ht : t ≤ T) :
    ticksLeft T d (some t) = (T - t) / d + 1 := by
  rw [ticksLeft, Option.elim_some, Nat.sub_add_comm ht, Nat.add_div_right _ hd]

theorem ticksLeft_ran {T : ℕ} {u : Option ℕ} (hd : 0 < d) (ht : t ≤ T)
    (hnext : ∀ v ∈ u, v = t + d) : ticksLeft T d u + 1 ≤ ticksLeft T d (some t) := by
  rw [ticksLeft_some hd ht]
  cases u with
  | none => exact Nat.succ_le_succ (Nat.zero_le _)
  | some v =>
    obtain rfl := hnext v rfl
    rw [ticksLeft, Option.elim_some, Nat.add_sub_add_right]

section
variable {T : ℕ} {work : Timed S ι → ℕ}
  (uses : ∀ x t l x', K.Reachable x₀ x → K.timedStep x (t, l) = .ok x' → t ≤ T →
    work x' < work x)
include uses

/-- If every step until `T` uses up work, there are no more of them than work. -/
theorem Reachable.length_le {ls : List (ℕ × L)} (h : K.Reachable x₀ x)
    (hrun : Runs.exec K.timedStep x ls = .ok x') (hT : x'.now ≤ T) :
    ls.length + work x' ≤ work x := by
  induction ls using List.reverseRecOn generalizing x' with
  | nil =>
    cases hrun
    exact (Nat.zero_add _).le
  | append_singleton ls l ih =>
    obtain ⟨t, l⟩ := l
    obtain ⟨y, hy, hs⟩ := Runs.exec_snoc.mp hrun
    have hused := uses y t l x' (Runs.Reachable.append h hy) hs
    obtain ⟨⟨hnow, -⟩, s, -, rfl⟩ := timedStep_ok.mp hs
    have hle := ih hy (hnow.trans hT)
    have hlt := hused hT
    rw [List.length_append, List.length_singleton]
    omega

/-- If there also is always a next step, with an input that meets `P`, the clock goes
past `T` on such inputs. -/
theorem Reachable.passes {P : L → Prop}
    (next : ∀ x, K.Reachable x₀ x → ∃ t l x', K.timedStep x (t, l) = .ok x' ∧ P l)
    (h : K.Reachable x₀ x) :
    ∃ ls x', Runs.exec K.timedStep x ls = .ok x' ∧ (∀ l ∈ ls, P l.2) ∧ T < x'.now := by
  induction hw : work x using Nat.strong_induction_on generalizing x with
  | _ w ih =>
    obtain ⟨t, l, y, hs, hl⟩ := next x h
    rcases Nat.lt_or_ge T y.now with hlt | hge
    · exact ⟨[(t, l)], y, Runs.exec_cons.mpr ⟨y, hs, rfl⟩, List.forall_mem_singleton.mpr hl, hlt⟩
    · have ht : t ≤ T := by
        obtain ⟨-, s, -, rfl⟩ := timedStep_ok.mp hs
        exact hge
      obtain ⟨ls, x', hrun, hls, hT⟩ :=
        ih _ (hw ▸ uses x t l y h hs ht) (Runs.Reachable.tail h hs) rfl
      exact ⟨(t, l) :: ls, x', Runs.exec_cons.mpr ⟨y, hs, hrun⟩,
        List.forall_mem_cons.mpr ⟨hl, hls⟩, hT⟩

end

end Clocked
