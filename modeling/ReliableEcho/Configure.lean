import ReliableEcho.Budget
import ReliableEcho.SetFill

/-!
# The payload in a run

The setters may be called between any two inputs of a client. What `Send` puts
behind the header is the data of the last call, except that the size of a
string is kept in 32 bits.
-/

namespace ReliableEcho

open SelectiveRepeat (Line)
open Runs (EachStep exec)
open Tiling (Tiles)

inductive Setter
  | setDataSize (dataSize : UInt32)
  | setFillString (fill : Buffer)
  | setFillByte (fill : UInt8) (dataSize : UInt32)
  | setFillBuffer (fill : Buffer) (fillSize dataSize : UInt32)

namespace Setter

def apply (p : Payload) (memory : ℕ → UInt8) : Setter → Except FillFault Payload
  | setDataSize dataSize => .ok (p.setDataSize dataSize)
  | setFillString fill => p.setFillString memory fill
  | setFillByte fill dataSize => p.setFillByte memory fill dataSize
  | setFillBuffer fill fillSize dataSize => p.setFillBuffer memory fill fillSize dataSize

/-- What a caller of the buffer overload has to see to. -/
def Admissible : Setter → Prop
  | setFillBuffer fill fillSize dataSize => 1 ≤ fillSize.toNat ∧
    fillSize.toNat + dataSize.toNat ≤ 2 ^ 32 ∧ fillSize.toNat ≤ fill.length
  | _ => True

instance : DecidablePred Admissible
  | setDataSize _ => .isTrue trivial
  | setFillString _ => .isTrue trivial
  | setFillByte _ _ => .isTrue trivial
  | setFillBuffer .. => inferInstanceAs (Decidable (_ ∧ _ ∧ _))

/-- The data a setter is to give the packets. -/
def Describes : Setter → Buffer → Prop
  | setDataSize dataSize, data => data.length = dataSize.toNat
  | setFillString fill, data => data = fill ++ [0]
  | setFillByte fill dataSize, data => data = List.replicate dataSize.toNat fill
  | setFillBuffer fill fillSize dataSize, data =>
    data.length = dataSize.toNat ∧ ∀ i < dataSize.toNat, data[i]? = fill[i % fillSize.toNat]?

end Setter

structure Configurable where
  machine : Machine
  last : Setter

namespace Configurable

inductive Input
  | run (i : Machine.Input)
  | set (memory : ℕ → UInt8) (setter : Setter)

def step (c : Configurable) : Input → Except (Fault ⊕ FillFault) Configurable
  | .run i =>
    match c.machine.step i with
    | .ok m => .ok { c with machine := m }
    | .error e => .error (.inl e)
  | .set memory setter =>
    if setter.Admissible then
      match setter.apply c.machine.client.payload memory with
      | .ok p => .ok ⟨{ c.machine with client := { c.machine.client with payload := p } }, setter⟩
      | .error e => .error (.inr e)
    else .error (.inl .notEnabled)

def start (maxPackets size : UInt32) : Configurable :=
  ⟨.start maxPackets ⟨size.toNat, 0, none⟩, .setDataSize size⟩

-- ---------------------------------------------------------------------------
-- What the payload holds
-- ---------------------------------------------------------------------------

end Configurable

/-- What the last setter left. -/
def Setter.Left (p : Payload) : Setter → Prop
  | setDataSize dataSize => p = ⟨dataSize.toNat, 0, none⟩
  | setFillString fill => p.Holds ((fill ++ [0]).take (u32 (fill.length + 1)))
  | setFillByte fill dataSize => p.Holds (List.replicate dataSize.toNat fill)
  | setFillBuffer fill fillSize dataSize => ∃ data, p.Holds data ∧ data.length = dataSize.toNat ∧
    Tiles fill fillSize.toNat dataSize.toNat data

namespace Setter

variable {p : Payload} {setter : Setter} {memory : ℕ → UInt8}

theorem Left.allocated (h : setter.Left p) : p.Allocated := by
  cases setter with
  | setDataSize dataSize =>
    cases h
    rfl
  | setFillString fill => exact Payload.Holds.allocated h
  | setFillByte fill dataSize => exact Payload.Holds.allocated h
  | setFillBuffer fill fillSize dataSize =>
    obtain ⟨data, hd, -⟩ := h
    exact hd.allocated

theorem apply_left (memory : ℕ → UInt8) (hp : p.Allocated) (hs : setter.Admissible) :
    ∃ p', setter.apply p memory = .ok p' ∧ setter.Left p' := by
  cases setter with
  | setDataSize dataSize => exact ⟨_, rfl, rfl⟩
  | setFillString fill => exact Payload.setFillString_holds hp memory fill
  | setFillByte fill dataSize => exact Payload.setFillByte_holds hp memory fill
  | setFillBuffer fill fillSize dataSize =>
    obtain ⟨hpos, hsum, hfill⟩ := hs
    -- the blocks that cover the data end before `fillSize + dataSize`
    have hcover : dataSize.toNat ≤
        ((dataSize.toNat + fillSize.toNat - 1) / fillSize.toNat) * fillSize.toNat := by
      have := Nat.div_add_mod (dataSize.toNat + fillSize.toNat - 1) fillSize.toNat
      have := Nat.mod_lt (dataSize.toNat + fillSize.toNat - 1) hpos
      rw [Nat.mul_comm]
      omega
    have hbelow := Nat.div_mul_le_self (dataSize.toNat + fillSize.toNat - 1) fillSize.toNat
    obtain ⟨p', data, hs, hd, hlen, ht⟩ := Payload.setFillBuffer_holds hp memory hfill hcover
      (by omega)
    exact ⟨p', hs, data, hd, hlen, ht⟩

/-- The packet made is the one described, unless it is a string too long. -/
theorem Left.createPacket (h : setter.Left p) : ∃ data, p.createPacket = .ok data ∧
    (setter.Describes data ↔ ∀ fill, setter = .setFillString fill → fill.length + 1 < 2 ^ 32) := by
  cases setter with
  | setDataSize dataSize =>
    cases h
    exact ⟨List.replicate dataSize.toNat 0, rfl, by simp [Describes]⟩
  | setFillString fill =>
    refine ⟨_, Payload.Holds.createPacket h, ?_⟩
    have hlen : (fill ++ [0]).length = fill.length + 1 := by simp
    simp only [Describes, List.take_eq_self_iff, hlen, setFillString.injEq, forall_eq']
    unfold u32
    omega
  | setFillByte fill dataSize => exact ⟨_, Payload.Holds.createPacket h, by simp [Describes]⟩
  | setFillBuffer fill fillSize dataSize =>
    obtain ⟨data, hd, hlen, ht⟩ := h
    exact ⟨data, hd.createPacket, iff_of_true ⟨hlen, ht⟩ (by simp)⟩

end Setter

-- ---------------------------------------------------------------------------
-- Runs
-- ---------------------------------------------------------------------------

theorem Machine.send_wire {m m' : Machine} (hs : m.send = .ok m') : m'.wire = m.wire ∨
    ∃ (h : RdtHeader) (data : Buffer), m.client.payload.createPacket = .ok data ∧
      m'.wire = m.wire ++ [h.serialize ++ data] := by
  cases send_cases hs with
  | waits => exact .inl rfl
  | fresh _ _ p hp => exact .inr ⟨_, p, hp, wire_transmitted⟩
  | again _ _ p hp => exact .inr ⟨_, p, hp, wire_transmitted⟩
  | skips => exact .inl rfl

namespace Configurable

variable {c c' : Configurable} {i : Input} {maxPackets size : UInt32}

def MakesPacket (m : Machine) (id : EventId) : Prop :=
  m.sim.events.lookup id = some .send ∧ (m.client.windowFull && !m.client.retransmit) = false

/-- Admissible setters return, and where `Send` makes a packet no assertion fails and
the packet is the data of the last setter. -/
def CarriesLastData (c : Configurable) : Input → Prop
  | .run (.fire id) => MakesPacket c.machine id → ∃ data, c.last.Describes data ∧
    c.machine.client.payload.createPacket = .ok data ∧
    c.machine.fire id ≠ .error .sizeInconsistent ∧ c.machine.fire id ≠ .error .noData ∧
    ∀ m, c.machine.fire id = .ok m → m.wire = c.machine.wire ∨
      ∃ h : RdtHeader, m.wire = c.machine.wire ++ [h.serialize ++ data]
  | .run (.read _) => True
  | .set memory setter => setter.Admissible →
    ∃ p, setter.apply c.machine.client.payload memory = .ok p

/-- `Send` does not make a packet of a string whose size does not fit in 32 bits. -/
def StringFits (c : Configurable) : Input → Prop
  | .run (.fire id) => MakesPacket c.machine id →
    ∀ fill, c.last = .setFillString fill → fill.length + 1 < 2 ^ 32
  | _ => True

structure Kept (c : Configurable) : Prop where
  budget : c.machine.Budget
  left : c.last.Left c.machine.client.payload

theorem Kept.step (h : c.Kept) (hs : step c i = .ok c') : c'.Kept := by
  have hb := h.budget
  cases i with
  | run i =>
    simp only [Configurable.step] at hs
    split at hs
    · rename_i m hm
      cases hs
      exact ⟨hb.step hm, by rw [(Machine.step_frame hb hm).2.1]; exact h.left⟩
    · cases hs
  | set memory setter =>
    simp only [Configurable.step] at hs
    split at hs
    · rename_i hadm
      obtain ⟨p, hp, hleft⟩ := setter.apply_left memory h.left.allocated hadm
      rw [hp] at hs
      cases hs
      exact ⟨⟨⟨hb.fresh, hb.owned, hb.count_lt, hb.seqNum_le, hb.sent_le, hb.untouched⟩, hb.current,
        hb.scheduled⟩, hleft⟩
    · cases hs

theorem carriesLastData_iff (h : c.Kept) : CarriesLastData c i ↔ StringFits c i := by
  cases i with
  | set memory setter =>
    refine iff_of_true (fun hadm => ?_) trivial
    obtain ⟨p, hp, -⟩ := setter.apply_left memory h.left.allocated hadm
    exact ⟨p, hp⟩
  | run i =>
    cases i with
    | read packet => exact Iff.rfl
    | fire id =>
      refine imp_congr_right fun ⟨hid, _⟩ => ?_
      obtain ⟨data, hcreate, hfits⟩ := h.left.createPacket
      have hfire : c.machine.fire id =
          Machine.send { c.machine with sim := c.machine.sim.cancel id } := by
        simp [Machine.fire, hid]
      rw [← hfits]
      constructor
      · rintro ⟨data', hdesc, hcreate', -⟩
        rw [hcreate] at hcreate'
        cases hcreate'
        exact hdesc
      · intro hdesc
        have sound : ∀ e, e = .sizeInconsistent ∨ e = .noData → c.machine.fire id ≠ .error e := by
          intro e he hs
          rw [hfire] at hs
          rcases Machine.send_error hs with ⟨rfl, -⟩ | hbad | rfl
          · simp at he
          · rw [show Payload.createPacket _ = .ok data from hcreate] at hbad
            cases hbad
          · simp at he
        refine ⟨data, hdesc, hcreate, sound _ (.inl rfl), sound _ (.inr rfl), fun m hs => ?_⟩
        rw [hfire] at hs
        rcases Machine.send_wire hs with hw | ⟨hdr, data', hcreate', hw⟩
        · exact .inl hw
        · have hcreate' : c.machine.client.payload.createPacket = .ok data' := hcreate'
          rw [hcreate] at hcreate'
          cases hcreate'
          exact .inr ⟨hdr, hw⟩

/-- In any run every packet is the data of the last setter exactly when none is
made of a string whose size does not fit in 32 bits. -/
theorem payload_carried_iff (maxPackets size : UInt32) (is : List Input) :
    EachStep step CarriesLastData (start maxPackets size) is ↔
      EachStep step StringFits (start maxPackets size) is := by
  refine Runs.eachStep_congr_of_reachable (fun c i hr => carriesLastData_iff ?_) .refl
  exact hr.invariant ⟨Machine.budget_start, rfl⟩ fun _ _ _ _ hk hs => hk.step hs

/-- The size of a string of 2 ^ 32 - 1 bytes with its terminating zero is 0 in 32 bits,
and `Send` puts nothing behind the header. -/
theorem long_string_lost : ∃ c m,
    exec step (start 3 100) [.set (fun _ => 0) (.setFillString (List.replicate 4294967295 65))] = .ok c ∧
    c.last = .setFillString (List.replicate 4294967295 65) ∧ MakesPacket c.machine 1 ∧
    c.machine.fire 1 = .ok m ∧ c.machine.wire = [] ∧ m.wire = [[0, 0, 0, 0]] := by
  generalize hlong : List.replicate 4294967295 (65 : UInt8) = long
  obtain ⟨p, hp, hholds⟩ := Payload.setFillString_holds (p := ⟨100, 0, none⟩) rfl (fun _ => 0) long
  have hzero : u32 (long.length + 1) = 0 := by
    rw [← hlong, List.length_replicate]
    rfl
  rw [hzero, List.take_zero] at hholds
  let m₀ : Machine := .start 3 ⟨100, 0, none⟩
  let m₁ : Machine := { m₀ with client := { m₀.client with payload := p } }
  have hset : step (start 3 100) (.set (fun _ => 0) (.setFillString long)) =
      .ok ⟨m₁, .setFillString long⟩ := by
    have happly : Setter.apply (start 3 100).machine.client.payload (fun _ => 0)
        (.setFillString long) = .ok p := hp
    rw [step, if_pos (by trivial), happly]
    rfl
  obtain ⟨m, hs⟩ := Machine.send_returns (m := { m₁ with sim := m₁.sim.cancel 1 }) rfl
    hholds.createPacket rfl
  have hdue : m₁.sim.events.lookup 1 = some .send := rfl
  have hroom : ¬ 10 ≤ u32 (0 + 2 ^ 32 - 0) := by decide
  have hfull : m₁.client.windowFull = false := decide_eq_false hroom
  have hmakes : MakesPacket m₁ 1 := ⟨hdue, by rw [hfull, Bool.false_and]⟩
  have hfire : m₁.fire 1 = .ok m := hs
  refine ⟨_, m, Runs.exec_cons.mpr ⟨_, hset, rfl⟩, rfl, hmakes, hfire, rfl, ?_⟩
  cases Machine.send_cases hs with
  | waits _ hfull' =>
    rw [show Client.windowFull _ = false from hfull] at hfull'
    cases hfull'
  | fresh _ _ data hdata =>
    have hdata : p.createPacket = .ok data := hdata
    rw [hholds.createPacket] at hdata
    cases hdata
    have hheader : [(RdtHeader.setSeq 0).serialize ++ []] = [[0, 0, 0, 0]] := by decide
    rcases Machine.transmitted_cases with he | he <;> rw [he] <;> exact hheader
  | again hr => cases hr
  | skips hr => cases hr

end Configurable

end ReliableEcho
