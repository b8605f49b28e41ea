import Httpd.Http.Text
import Httpd.Library.Feedback

/-! # Checksums

The table-driven checksum of `crc32.cpp`. The result for a piece is the start for the next, so
that a body can be summed up while it is streamed. A step by the table takes the eight bits of a
byte through a feedback register at once.
-/

namespace Httpd

open Feedback

namespace Crc32

/-- A pass of the loop over the bits of an entry. -/
def shiftBit (c : UInt32) : UInt32 :=
  if c &&& 1 != 0 then (0xEDB88320 : UInt32) ^^^ (c >>> 1) else c >>> 1

def makeTable : List UInt32 := (List.range 256).map fun i => shiftBit^[8] (.ofNat i)

def kTable : List UInt32 := makeTable

def addByte (crc : UInt32) (byte : UInt8) : UInt32 :=
  kTable.getD ((crc ^^^ byte.toUInt32) &&& 0xFF).toNat 0 ^^^ (crc >>> 8)

end Crc32

open Crc32

def crc32 (data : Bytes) (crc : UInt32) : UInt32 := ~~~ (data.foldl addByte (~~~ crc))

@[simp] theorem crc32_nil (crc : UInt32) : crc32 [] crc = crc := UInt32.not_not

theorem crc32_append (a b : Bytes) (crc : UInt32) :
    crc32 (a ++ b) crc = crc32 b (crc32 a crc) := by
  rw [crc32, List.foldl_append, crc32, crc32, UInt32.not_not]

namespace Crc32

def poly : BitVec 32 := 0xEDB88320

/-- The bits of the data in the order of transmission, those of a byte from the least significant
one. -/
def dataBits (data : Bytes) : List Bool := data.flatMap fun byte => lowBits 8 byte.toBitVec

/-- The checksum as it is specified: the bits go through the register one at a time. The register
starts as the complement of the checksum so far, and its complement is the result. -/
def bitSerial (data : Bytes) (crc : UInt32) : UInt32 :=
  .ofBitVec (~~~ (dataBits data).foldl (enter poly) (~~~ crc.toBitVec))

theorem lowBit_ne_zero (c : UInt32) : (c &&& 1 != 0) = c.toBitVec.getLsbD 0 := by
  have hand : (c &&& 1).toBitVec = (BitVec.ofBool (c.toBitVec.getLsbD 0)).setWidth 32 :=
    BitVec.and_one_eq_setWidth_ofBool_getLsbD
  rw [bne, Bool.eq_iff_iff, Bool.not_eq_true', beq_eq_false_iff_ne, ne_eq, ← UInt32.toBitVec_inj,
    hand]
  cases c.toBitVec.getLsbD 0 with
  | false => decide
  | true => decide

theorem toBitVec_shiftBit (c : UInt32) : (shiftBit c).toBitVec = shift poly c.toBitVec := by
  rw [shiftBit, shift, enter, lowBit_ne_zero, Bool.xor_false]
  split
  · rfl
  · rfl

/-- An entry of the table is its index after eight shifts. -/
theorem toBitVec_kTable {i : UInt32} (h : i.toNat < 256) :
    (kTable.getD i.toNat 0).toBitVec = (shift poly)^[8] i.toBitVec := by
  have hentry : kTable.getD i.toNat 0 = shiftBit^[8] i := by
    rw [kTable, makeTable, List.getD_eq_getElem?_getD, List.getElem?_map, List.getElem?_range h,
      Option.map_some, Option.getD_some, UInt32.ofNat_toNat]
  rw [hentry]
  exact Function.Semiconj.iterate_right toBitVec_shiftBit 8 i

theorem toBitVec_addByte (crc : UInt32) (byte : UInt8) :
    (addByte crc byte).toBitVec = (lowBits 8 byte.toBitVec).foldl (enter poly) crc.toBitVec := by
  have hindex : ((crc ^^^ byte.toUInt32) &&& 0xFF).toNat < 256 := by
    rw [UInt32.toNat_and]
    exact Nat.and_le_right.trans_lt (by decide)
  rw [foldl_enter_block poly (by decide), addByte, UInt32.toBitVec_xor, toBitVec_kTable hindex]
  rfl

theorem toBitVec_foldl_addByte (data : Bytes) (crc : UInt32) :
    (data.foldl addByte crc).toBitVec = (dataBits data).foldl (enter poly) crc.toBitVec := by
  induction data generalizing crc with
  | nil => rfl
  | cons byte data ih =>
    rw [List.foldl_cons, ih, toBitVec_addByte, dataBits, dataBits, List.flatMap_cons,
      List.foldl_append]

end Crc32

/-- The checksum by the table is the one bit by bit, from any start, and may be computed in
pieces. -/
theorem crc32_eq_bitSerial :
    (∀ data crc, crc32 data crc = bitSerial data crc) ∧
    ∀ a b crc, crc32 (a ++ b) crc = crc32 b (crc32 a crc) := by
  refine ⟨fun data crc => ?_, crc32_append⟩
  rw [crc32, bitSerial, ← UInt32.toBitVec_not, ← toBitVec_foldl_addByte, ← UInt32.toBitVec_not,
    UInt32.ofBitVec_toBitVec]

example : crc32 (text "123456789") 0 = 0xCBF43926 := by decide +kernel

end Httpd
