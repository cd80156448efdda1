import Mathlib.Algebra.Group.Nat.Defs

/-!
# Machine words and the packet header

Counters are numbers below `2 ^ 32` and keys numbers below `2 ^ 16`; every
conversion the client makes is written out. `RdtHeader` is the header the
client puts before its data: a 16-bit number serialized as four bytes.
-/

namespace ReliableEcho

/-- Conversion to `uint16_t`. -/
def u16 (n : ℕ) : ℕ := n % 2 ^ 16

/-- Conversion to `uint32_t`, and the result of arithmetic on it. -/
def u32 (n : ℕ) : ℕ := n % 2 ^ 32

theorem u16_lt (n : ℕ) : u16 n < 65536 := Nat.mod_lt _ (by decide)

theorem u16_of_lt (h : n < 65536) : u16 n = n := Nat.mod_eq_of_lt h

theorem u32_of_lt (h : n < 4294967296) : u32 n = n := Nat.mod_eq_of_lt h

theorem u32_succ_ne (n : ℕ) : u32 (n + 1) ≠ u32 n := by
  unfold u32
  omega

@[simp] theorem u32_u32_succ (n : ℕ) : u32 (u32 n + 1) = u32 (n + 1) := by
  unfold u32
  omega

abbrev Buffer := List UInt8

/-- `Buffer::Iterator::WriteHtonU32`. -/
def writeHtonU32 (data : ℕ) : Buffer :=
  [.ofNat (data / 2 ^ 24), .ofNat (data / 2 ^ 16), .ofNat (data / 2 ^ 8), .ofNat data]

/-- `Buffer::Iterator::ReadNtohU32`, with what is left of the buffer. -/
def readNtohU32 : Buffer → Option (ℕ × Buffer)
  | b₃ :: b₂ :: b₁ :: b₀ :: rest =>
    some (b₃.toNat * 2 ^ 24 + b₂.toNat * 2 ^ 16 + b₁.toNat * 2 ^ 8 + b₀.toNat, rest)
  | _ => none

theorem readNtohU32_writeHtonU32 (data : ℕ) (rest : Buffer) :
    readNtohU32 (writeHtonU32 data ++ rest) = some (u32 data, rest) := by
  simp only [writeHtonU32, List.cons_append, List.nil_append, readNtohU32, UInt8.toNat_ofNat',
    Option.some.injEq, Prod.mk.injEq, and_true, u32]
  omega

structure RdtHeader where
  seqNum : UInt16
  deriving DecidableEq, Repr

namespace RdtHeader

def setSeq (seq : ℕ) : RdtHeader := ⟨.ofNat seq⟩

def getSeq (h : RdtHeader) : ℕ := h.seqNum.toNat

def serialize (h : RdtHeader) : Buffer := writeHtonU32 h.seqNum.toNat

def deserialize (start : Buffer) : Option (RdtHeader × Buffer) :=
  (readNtohU32 start).map fun (seqNum, rest) => (⟨.ofNat seqNum⟩, rest)

theorem getSeq_lt (h : RdtHeader) : h.getSeq < 65536 := h.seqNum.toNat_lt

@[simp] theorem getSeq_setSeq (seq : ℕ) : (setSeq seq).getSeq = u16 seq := by
  simp [setSeq, getSeq, u16]

theorem deserialize_serialize (h : RdtHeader) (data : Buffer) :
    deserialize (h.serialize ++ data) = some (h, data) := by
  have hlt := h.seqNum.toNat_lt
  rw [deserialize, serialize, readNtohU32_writeHtonU32, u32_of_lt (by omega)]
  simp

end RdtHeader

end ReliableEcho
