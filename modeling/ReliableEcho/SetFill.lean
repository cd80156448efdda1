import ReliableEcho.Client
import ReliableEcho.Lib.Runs
import ReliableEcho.Lib.Tiling

/-!
# Setting the payload

`SetDataSize` and the three overloads of `SetFill`. Each call gets the content
of new memory as an argument, since it is not specified.
-/

namespace ReliableEcho

open Runs (bind_ok bind_error)
open Tiling (overwrite length_overwrite overwrite_all Tiles tiles_zero tiles_take)

/-- How a call of `SetFill` can fail to return. -/
inductive FillFault
  /-- the loop over the blocks never ends -/
  | endless
  /-- a copy outside of its source or of `m_data` -/
  | outOfBounds
  deriving DecidableEq, Repr

/-- `memcpy (&data[offset], src, n)` -/
def memcpy (data : Buffer) (offset : ℕ) (src : Buffer) (n : ℕ) : Except FillFault Buffer :=
  if offset + n ≤ data.length ∧ n ≤ src.length then .ok (overwrite data offset (src.take n))
  else .error .outOfBounds

/-- `memset (data, byte, n)` -/
def memset (data : Buffer) (byte : UInt8) (n : ℕ) : Except FillFault Buffer :=
  if n ≤ data.length then .ok (overwrite data 0 (List.replicate n byte)) else .error .outOfBounds

/-- The loop of `SetFill` over the whole blocks, with fuel. It returns `filled`
and the data. -/
def fillLoop (fill : Buffer) (fillSize dataSize : ℕ) : ℕ → ℕ → Buffer → Except FillFault (ℕ × Buffer)
  | 0, _, _ => .error .endless
  | fuel + 1, filled, data =>
    if u32 (filled + fillSize) < dataSize then do
      let data ← memcpy data filled fill fillSize
      fillLoop fill fillSize dataSize fuel (u32 (filled + fillSize)) data
    else .ok (filled, data)

namespace Payload

def bytes (p : Payload) : Buffer := p.data.getD []

def store (p : Payload) (bytes : Buffer) : Payload := { p with data := p.data.map fun _ => bytes }

/-- A new buffer, if the old one has another size. -/
def resize (p : Payload) (memory : ℕ → UInt8) (dataSize : ℕ) : Payload :=
  if dataSize ≠ p.dataSize then
    { p with dataSize := dataSize, data := some ((List.range dataSize).map memory) }
  else p

def setDataSize (_ : Payload) (dataSize : UInt32) : Payload := ⟨dataSize.toNat, 0, none⟩

/-- `SetFill (std::string fill)` -/
def setFillString (p : Payload) (memory : ℕ → UInt8) (fill : Buffer) : Except FillFault Payload := do
  let dataSize := u32 (fill.length + 1)
  let p := p.resize memory dataSize
  let data ← memcpy p.bytes 0 (fill ++ [0]) dataSize
  .ok { p.store data with size := dataSize }

/-- `SetFill (uint8_t fill, uint32_t dataSize)` -/
def setFillByte (p : Payload) (memory : ℕ → UInt8) (fill : UInt8) (dataSize : UInt32) :
    Except FillFault Payload := do
  let p := p.resize memory dataSize.toNat
  let data ← memset p.bytes fill dataSize.toNat
  .ok { p.store data with size := dataSize.toNat }

/-- `SetFill (uint8_t *fill, uint32_t fillSize, uint32_t dataSize)`. Fuel for a turn
per byte and one more is enough for every loop that ends at all (`setFill_safe_iff`). -/
def setFillBuffer (p : Payload) (memory : ℕ → UInt8) (fill : Buffer) (fillSize dataSize : UInt32) :
    Except FillFault Payload := do
  let p := p.resize memory dataSize.toNat
  if dataSize ≤ fillSize then
    let data ← memcpy p.bytes 0 fill dataSize.toNat
    .ok { p.store data with size := dataSize.toNat }
  else
    let (filled, data) ←
      fillLoop fill fillSize.toNat dataSize.toNat (dataSize.toNat + 1) 0 p.bytes
    let data ← memcpy data filled fill (u32 (dataSize.toNat + 2 ^ 32 - filled))
    .ok { p.store data with size := dataSize.toNat }

end Payload

-- ---------------------------------------------------------------------------
-- The loop over the blocks
-- ---------------------------------------------------------------------------

variable {fill data : Buffer} {fillSize dataSize filled fuel k n : ℕ}

theorem memcpy_ok (h : filled + n ≤ data.length) (hn : n ≤ fill.length) :
    memcpy data filled fill n = .ok (overwrite data filled (fill.take n)) := if_pos ⟨h, hn⟩

section
variable (hpos : 0 < fillSize) (hfill : fillSize ≤ fill.length) (hd : fillSize ∣ filled)
  (hlt : filled < dataSize) (hfuel : dataSize < filled + fuel)
include hpos hfill hd hlt hfuel

/-- If some number of whole blocks covers the data below 2 ^ 32, the guard never
wraps, and the loop lays whole blocks until one more would not fit. -/
theorem fillLoop_ok (hk : dataSize ≤ k * fillSize) (hk32 : k * fillSize < 4294967296)
    (hlen : data.length = dataSize) (ht : Tiles fill fillSize filled data) : ∃ filled' data',
    fillLoop fill fillSize dataSize fuel filled data = .ok (filled', data') ∧
    fillSize ∣ filled' ∧ filled' < dataSize ∧ dataSize ≤ filled' + fillSize ∧
    data'.length = dataSize ∧ Tiles fill fillSize filled' data' := by
  induction fuel generalizing filled data with
  | zero => omega
  | succ fuel ih =>
    have hnext : filled + fillSize < 4294967296 := by
      obtain ⟨j, rfl⟩ := hd
      have hj : j < k := by
        by_contra hj
        have := Nat.mul_le_mul_right fillSize (Nat.le_of_not_lt hj)
        rw [Nat.mul_comm j] at this
        omega
      have := Nat.mul_le_mul_right fillSize hj
      rw [Nat.succ_mul, Nat.mul_comm j] at this
      omega
    have htake : (fill.take fillSize).length = fillSize := List.length_take_of_le hfill
    rw [fillLoop, u32_of_lt hnext]
    split
    · rename_i hguard
      rw [memcpy_ok (by omega) hfill]
      refine ih ((Nat.dvd_add_right hd).mpr (Nat.dvd_refl _)) hguard (by omega) ?_ ?_
      · rw [length_overwrite (by omega), hlen]
      · exact ht.overwrite hd (Nat.le_refl _) (by omega) hfill
    · exact ⟨filled, data, rfl, hd, hlt, by omega, hlen, ht⟩

/-- Otherwise the first sum that covers the data wraps, and its block goes over
the end. -/
theorem fillLoop_outOfBounds (hsize : fillSize < 4294967296) (hdata : dataSize < 4294967296)
    (hno : ∀ k, dataSize ≤ k * fillSize → 4294967296 ≤ k * fillSize)
    (hlen : data.length = dataSize) :
    fillLoop fill fillSize dataSize fuel filled data = .error .outOfBounds := by
  induction fuel generalizing filled data with
  | zero => omega
  | succ fuel ih =>
    have htake : (fill.take fillSize).length = fillSize := List.length_take_of_le hfill
    rw [fillLoop]
    by_cases hguard : filled + fillSize < dataSize
    · rw [u32_of_lt (by omega), if_pos hguard, memcpy_ok (by omega) hfill]
      refine ih ((Nat.dvd_add_right hd).mpr (Nat.dvd_refl _)) hguard (by omega) ?_
      rw [length_overwrite (by omega), hlen]
    · have hwrap : 4294967296 ≤ filled + fillSize := by
        obtain ⟨j, rfl⟩ := hd
        have := hno (j + 1)
        rw [Nat.succ_mul, Nat.mul_comm j] at this
        omega
      have hover : ¬ (filled + fillSize ≤ data.length ∧ fillSize ≤ fill.length) := by omega
      rw [if_pos (by unfold u32; omega), memcpy, if_neg hover]
      rfl

end

theorem fillLoop_endless (hpos : 0 < dataSize) :
    fillLoop fill 0 dataSize fuel 0 data = .error .endless := by
  induction fuel generalizing data with
  | zero => rfl
  | succ fuel ih =>
    rw [fillLoop, show u32 (0 + 0) = 0 from rfl, if_pos hpos,
      memcpy_ok (Nat.zero_le _) (Nat.zero_le _)]
    exact ih

-- ---------------------------------------------------------------------------
-- What the setters leave
-- ---------------------------------------------------------------------------

namespace Payload

variable {p p' : Payload} {d : UInt32}

def Allocated (p : Payload) : Prop := p.bytes.length = p.dataSize

/-- The payload is set to `data`. -/
structure Holds (p : Payload) (data : Buffer) : Prop where
  size : p.size = data.length
  dataSize : p.dataSize = data.length
  bytes : p.bytes = data

theorem Holds.allocated (h : p.Holds data) : p.Allocated := by rw [Allocated, h.bytes, h.dataSize]

theorem Holds.createPacket (h : p.Holds data) : p.createPacket = .ok data := by
  have hs := h.size
  have hds := h.dataSize
  have hb := h.bytes
  unfold Payload.createPacket
  split
  · rename_i hne
    rw [if_neg (by omega)]
    unfold Payload.bytes at hb
    cases hdata : p.data with
    | none =>
      rw [hdata] at hb
      subst hb
      exact absurd hds hne
    | some bytes =>
      rw [hdata] at hb
      have hb : bytes = data := hb
      rw [hb, hds]
      exact congrArg Except.ok List.take_length
  · rename_i hzero
    have hnil : data = [] := List.eq_nil_of_length_eq_zero (by omega)
    rw [hs, hnil]
    rfl

theorem resize_allocated (hp : p.Allocated) (memory : ℕ → UInt8) (n : ℕ) :
    (p.resize memory n).dataSize = n ∧
    (p.resize memory n).bytes.length = n := by
  unfold resize
  split
  · exact ⟨rfl, by simp [bytes]⟩
  · rename_i heq
    simp only [ne_eq, Decidable.not_not] at heq
    exact ⟨heq.symm, heq ▸ hp⟩

theorem holds_store (hp : p.Allocated) (memory : ℕ → UInt8) (hd : data.length = n) :
    Holds { (p.resize memory n).store data with size := n } data := by
  obtain ⟨hsize, hlen⟩ := resize_allocated hp memory n
  refine ⟨hd.symm, hsize.trans hd.symm, ?_⟩
  unfold bytes store at *
  cases hdata : (p.resize memory n).data with
  | none =>
    rw [hdata] at hlen
    have hzero : data.length = 0 := hd.trans hlen.symm
    exact (List.eq_nil_of_length_eq_zero hzero).symm
  | some bytes => rfl

theorem setFillString_holds (hp : p.Allocated) (memory : ℕ → UInt8) (fill : Buffer) : ∃ p',
    p.setFillString memory fill = .ok p' ∧
      p'.Holds ((fill ++ [0]).take (u32 (fill.length + 1))) := by
  have hle : u32 (fill.length + 1) ≤ (fill ++ [0]).length := by
    rw [List.length_append]
    exact Nat.mod_le _ _
  obtain ⟨-, hlen⟩ := resize_allocated hp memory (u32 (fill.length + 1))
  have htake : ((fill ++ [0]).take (u32 (fill.length + 1))).length = u32 (fill.length + 1) :=
    List.length_take_of_le hle
  refine ⟨_, ?_, holds_store hp memory htake⟩
  rw [setFillString, memcpy_ok (by omega) hle, overwrite_all (htake.trans hlen.symm)]
  rfl

theorem setFillByte_holds (hp : p.Allocated) (memory : ℕ → UInt8) (fill : UInt8) : ∃ p',
    p.setFillByte memory fill d = .ok p' ∧ p'.Holds (List.replicate d.toNat fill) := by
  obtain ⟨-, hlen⟩ := resize_allocated hp memory d.toNat
  have hrep : (List.replicate d.toNat fill).length = d.toNat := List.length_replicate
  refine ⟨_, ?_, holds_store hp memory hrep⟩
  rw [setFillByte, memset, if_pos (Nat.le_of_eq hlen.symm), overwrite_all (hrep.trans hlen.symm)]
  rfl

variable {fill : Buffer} {fillSize dataSize : UInt32}

/-- If whole blocks cover the data below 2 ^ 32, the buffer overload lays the fill over it. -/
theorem setFillBuffer_holds (hp : p.Allocated) (memory : ℕ → UInt8)
    (hfill : fillSize.toNat ≤ fill.length) (hk : dataSize.toNat ≤ k * fillSize.toNat)
    (hk32 : k * fillSize.toNat < 2 ^ 32) : ∃ p' data,
    p.setFillBuffer memory fill fillSize dataSize = .ok p' ∧ p'.Holds data ∧
      data.length = dataSize.toNat ∧ Tiles fill fillSize.toNat dataSize.toNat data := by
  obtain ⟨-, hlen⟩ := resize_allocated hp memory dataSize.toNat
  unfold setFillBuffer
  dsimp only
  split
  · rename_i hle
    have hle : dataSize.toNat ≤ fillSize.toNat := hle
    have htake : (fill.take dataSize.toNat).length = dataSize.toNat :=
      List.length_take_of_le (Nat.le_trans hle hfill)
    refine ⟨_, _, ?_, holds_store hp memory htake, htake, tiles_take hle⟩
    rw [memcpy_ok (by omega) (Nat.le_trans hle hfill), overwrite_all (htake.trans hlen.symm)]
    rfl
  · rename_i hlt
    have hlt : fillSize.toNat < dataSize.toNat := Nat.lt_of_not_le hlt
    have hdata := dataSize.toNat_lt
    have hpos : 0 < fillSize.toNat := by
      rcases Nat.eq_zero_or_pos fillSize.toNat with h | h
      · rw [h] at hk
        omega
      · exact h
    have hfuel : dataSize.toNat < 0 + (dataSize.toNat + 1) := by omega
    obtain ⟨filled, data, hloop, hd, hlast, hrest, hlen', ht⟩ :=
      fillLoop_ok hpos hfill (Nat.dvd_zero _) (by omega) hfuel hk hk32 hlen tiles_zero
    have hsub : u32 (dataSize.toNat + 2 ^ 32 - filled) = dataSize.toNat - filled := by
      unfold u32
      omega
    have htile := ht.overwrite hd (m := dataSize.toNat - filled) (by omega) (by omega) (by omega)
    have htake : (fill.take (dataSize.toNat - filled)).length = dataSize.toNat - filled :=
      List.length_take_of_le (by omega)
    have hall : (overwrite data filled (fill.take (dataSize.toNat - filled))).length =
        dataSize.toNat := by
      rw [length_overwrite (by omega), hlen']
    have hcopy : memcpy data filled fill (u32 (dataSize.toNat + 2 ^ 32 - filled)) =
        .ok (overwrite data filled (fill.take (dataSize.toNat - filled))) := by
      rw [hsub]
      exact memcpy_ok (by omega) (by omega)
    refine ⟨_, _, ?_, holds_store hp memory hall, hall, ?_⟩
    · exact bind_ok.mpr ⟨(filled, data), hloop, bind_ok.mpr ⟨_, hcopy, rfl⟩⟩
    · rwa [Nat.add_sub_cancel' (Nat.le_of_lt hlast)] at htile

-- ---------------------------------------------------------------------------
-- Which sizes are safe
-- ---------------------------------------------------------------------------

theorem setFillBuffer_overruns (hp : p.Allocated) (memory : ℕ → UInt8)
    (hfill : fillSize.toNat ≤ fill.length)
    (hno : ¬ ∃ k, dataSize.toNat ≤ k * fillSize.toNat ∧ k * fillSize.toNat < 2 ^ 32) :
    (fillSize.toNat = 0 ∧ 0 < dataSize.toNat ∧
      p.setFillBuffer memory fill fillSize dataSize = .error .endless) ∨
    p.setFillBuffer memory fill fillSize dataSize = .error .outOfBounds := by
  obtain ⟨-, hlen⟩ := resize_allocated hp memory dataSize.toNat
  have hsize := fillSize.toNat_lt
  have hdata := dataSize.toNat_lt
  have hlt : fillSize.toNat < dataSize.toNat := by
    by_contra hle
    exact hno ⟨1, by omega, by omega⟩
  have hno : ∀ k, dataSize.toNat ≤ k * fillSize.toNat → 4294967296 ≤ k * fillSize.toNat := by
    intro k hk
    by_contra hk32
    exact hno ⟨k, hk, by omega⟩
  have hle : ¬ dataSize ≤ fillSize := Nat.not_le_of_lt hlt
  unfold setFillBuffer
  rw [if_neg hle]
  rcases Nat.eq_zero_or_pos fillSize.toNat with hzero | hpos
  · refine .inl ⟨hzero, by omega, bind_error.mpr (.inl ?_)⟩
    rw [hzero]
    exact fillLoop_endless (by omega)
  · have hfuel : dataSize.toNat < 0 + (dataSize.toNat + 1) := by omega
    exact .inr (bind_error.mpr (.inl (fillLoop_outOfBounds hpos hfill (Nat.dvd_zero _) (by omega)
      hfuel hsize hdata hno hlen)))

/-- The loop of the buffer overload ends and copies within `m_data` exactly when
some number of whole blocks covers the data below 2 ^ 32. When it does not end,
it ends on no amount of fuel. -/
theorem setFill_safe_iff (p : Payload) (memory : ℕ → UInt8) (fill : Buffer)
    (fillSize dataSize : UInt32) (hp : p.Allocated) (hfill : fillSize.toNat ≤ fill.length) :
    ((∃ p', p.setFillBuffer memory fill fillSize dataSize = .ok p') ↔
      ∃ k, dataSize.toNat ≤ k * fillSize.toNat ∧ k * fillSize.toNat < 2 ^ 32) ∧
    (p.setFillBuffer memory fill fillSize dataSize = .error .endless → ∀ fuel,
      fillLoop fill fillSize.toNat dataSize.toNat fuel 0 (p.resize memory dataSize.toNat).bytes =
        .error .endless) := by
  have returns : (∃ k, dataSize.toNat ≤ k * fillSize.toNat ∧ k * fillSize.toNat < 2 ^ 32) →
      ∃ p', p.setFillBuffer memory fill fillSize dataSize = .ok p' := by
    rintro ⟨k, hk, hk32⟩
    obtain ⟨p', data, hs, -⟩ := setFillBuffer_holds hp memory hfill hk hk32
    exact ⟨p', hs⟩
  refine ⟨⟨?_, returns⟩, fun hs fuel => ?_⟩
  · rintro ⟨p', hs⟩
    by_contra hno
    rcases setFillBuffer_overruns hp memory hfill hno with ⟨-, -, he⟩ | he <;>
      · rw [hs] at he
        cases he
  · by_cases hk : ∃ k, dataSize.toNat ≤ k * fillSize.toNat ∧ k * fillSize.toNat < 2 ^ 32
    · obtain ⟨p', hok⟩ := returns hk
      rw [hs] at hok
      cases hok
    · rcases setFillBuffer_overruns hp memory hfill hk with ⟨hzero, hpos, -⟩ | he
      · rw [hzero]
        exact fillLoop_endless hpos
      · rw [hs] at he
        cases he

theorem setFill_safe_of_blocks : ∃ p',
    (⟨100, 0, none⟩ : Payload).setFillBuffer (fun _ => 0) [1, 2, 3] 3 8 = .ok p' :=
  (setFill_safe_iff ⟨100, 0, none⟩ (fun _ => 0) [1, 2, 3] 3 8 rfl (by decide)).1.mpr
    ⟨3, by decide, by decide⟩

/-- No bytes repeated never fill one, and two blocks of 2147483649 bytes do not fit
into 4294967295. -/
theorem setFill_endless_or_overrun :
    (∀ fuel, fillLoop [] 0 1 fuel 0 [0] = .error .endless) ∧
    (⟨100, 0, none⟩ : Payload).setFillBuffer (fun _ => 0) [] 0 1 = .error .endless ∧
    (⟨100, 0, none⟩ : Payload).setFillBuffer (fun _ => 0) (List.replicate 2147483649 0) 2147483649
      4294967295 = .error .outOfBounds := by
  refine ⟨fun fuel => fillLoop_endless (by decide), rfl, ?_⟩
  have hfill : (2147483649 : UInt32).toNat ≤ (List.replicate 2147483649 (0 : UInt8)).length := by
    rw [List.length_replicate]
    exact Nat.le_refl _
  refine (setFillBuffer_overruns (p := ⟨100, 0, none⟩) rfl _ hfill ?_).resolve_left
    fun h => absurd h.1 (by decide)
  rintro ⟨k, hk, hk32⟩
  have hk : 4294967295 ≤ k * 2147483649 := hk
  have hk32 : k * 2147483649 < 4294967296 := hk32
  omega

end Payload

end ReliableEcho
