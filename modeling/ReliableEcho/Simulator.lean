import Mathlib.Data.Finmap

/-!
# The simulator's events

The part of the ns-3 simulator one client sees: the events it scheduled that
have neither run nor been cancelled, under the identifiers that `Schedule`
returned. Time is left out. Any pending event may run next, so a run of the
client is an arbitrary interleaving of its handlers.
-/

namespace Finmap

variable {α β : Type} [DecidableEq α]

theorem lookup_insert_eq (m : Finmap fun _ : α => β) (k a : α) (b : β) :
    (m.insert k b).lookup a = if a = k then some b else m.lookup a := by
  by_cases h : a = k
  · subst h; simp
  · simp [h, lookup_insert_of_ne m h]

theorem lookup_erase_eq (m : Finmap fun _ : α => β) (k a : α) :
    (m.erase k).lookup a = if a = k then none else m.lookup a := by
  by_cases h : a = k
  · subst h; simp
  · simp [h, lookup_erase_ne h]

theorem lookup_of_erase {m : Finmap fun _ : α => β} {k a : α} {b : β}
    (h : (m.erase k).lookup a = some b) : a ≠ k ∧ m.lookup a = some b := by
  rw [lookup_erase_eq] at h
  split at h
  · cases h
  · exact ⟨‹_›, h⟩

end Finmap

namespace ReliableEcho

abbrev EventId := ℕ

/-- The client's handlers that the simulator calls. -/
inductive Event
  | send
  | handleTimeout (seq : ℕ)
  | ppsLog
  deriving DecidableEq, Repr

structure Simulator where
  uid : ℕ
  events : Finmap fun _ : EventId => Event

namespace Simulator

def empty : Simulator := ⟨0, ∅⟩

/-- `Simulator::Schedule`; the event's identifier is the `uid` before. -/
def schedule (sim : Simulator) (ev : Event) : Simulator :=
  { uid := sim.uid + 1, events := sim.events.insert sim.uid ev }

/-- `Simulator::Cancel`, and the removal of an event that runs. -/
def cancel (sim : Simulator) (id : EventId) : Simulator :=
  { sim with events := sim.events.erase id }

/-- `EventId::IsExpired`; the default identifier is expired. -/
def isExpired (sim : Simulator) : Option EventId → Bool
  | none => true
  | some id => (sim.events.lookup id).isNone

def cancelEvent (sim : Simulator) : Option EventId → Simulator
  | none => sim
  | some id => sim.cancel id

/-- Identifiers not yet issued have no event. -/
def Fresh (sim : Simulator) : Prop := ∀ id : ℕ, sim.uid ≤ id → sim.events.lookup id = none

variable {sim : Simulator} {ev : Event} {id a : ℕ}

@[simp] theorem lookup_schedule :
    (sim.schedule ev).events.lookup a = if a = sim.uid then some ev else sim.events.lookup a :=
  Finmap.lookup_insert_eq ..

@[simp] theorem lookup_cancel :
    (sim.cancel id).events.lookup a = if a = id then none else sim.events.lookup a :=
  Finmap.lookup_erase_eq ..

@[simp] theorem lookup_cancelEvent {ev? : Option EventId} :
    (sim.cancelEvent ev?).events.lookup a = if ev? = some a then none else sim.events.lookup a := by
  cases ev? with
  | none => simp [cancelEvent]
  | some id => simp [cancelEvent, eq_comm]

theorem lookup_of_cancel (h : (sim.cancel id).events.lookup a = some ev) :
    a ≠ id ∧ sim.events.lookup a = some ev :=
  Finmap.lookup_of_erase h

@[simp] theorem uid_schedule : (sim.schedule ev).uid = sim.uid + 1 := rfl
@[simp] theorem uid_cancel : (sim.cancel id).uid = sim.uid := rfl

theorem Fresh.schedule (h : sim.Fresh) : (sim.schedule ev).Fresh := by
  intro a ha
  rw [uid_schedule] at ha
  rw [lookup_schedule, if_neg (by omega), h a (by omega)]

theorem Fresh.cancel (h : sim.Fresh) : (sim.cancel id).Fresh := by
  intro a ha
  rw [lookup_cancel, h a ha, ite_self]

end Simulator

end ReliableEcho
