import Mathlib.Algebra.Ring.Nat
import Nozomi.Text.Bytes

/-! Chained buffers, seen through the bytes of their segments, and the text
that the server reads out of a chain. -/
namespace Nozomi

open Text

/-- What a handler of exceptions can tell: whether the object thrown is
derived from `std::exception`. -/
inductive Thrown where
  | std
  | other
  deriving DecidableEq

abbrev Throws := Except Thrown

theorem Throws.bind_eq_ok_iff {α β : Type} (attempt : Throws α) (next : α → Throws β) (result : β) :
    attempt >>= next = .ok result ↔ ∃ value, attempt = .ok value ∧ next value = .ok result := by
  cases attempt <;> simp [Bind.bind, Except.bind]

/-- A chain of segments. A chain always has a first segment, which may be
empty, as may every other one. -/
structure IOBuf where
  first : Bytes
  rest : List Bytes
  deriving DecidableEq

namespace IOBuf

def segments (data : IOBuf) : List Bytes := data.first :: data.rest

def bytes (data : IOBuf) : Bytes := data.segments.flatten

/-- The length of the first segment only. -/
def length (data : IOBuf) : Nat := data.first.length

def computeChainDataLength (data : IOBuf) : Nat := (data.segments.map List.length).sum

/-- A freshly created buffer holds no data, whatever its capacity. -/
def create : IOBuf := ⟨[], []⟩

def copyBuffer (text : Bytes) : IOBuf := ⟨text, []⟩

/-- Prepending to the head of a circular chain appends at its end. -/
def prependChain (data other : IOBuf) : IOBuf := ⟨data.first, data.rest ++ other.segments⟩

/-- A clone shares every segment of the chain. -/
def clone (data : IOBuf) : IOBuf := data

@[simp] theorem bytes_create : create.bytes = [] := rfl

@[simp] theorem bytes_copyBuffer (text : Bytes) : (copyBuffer text).bytes = text := by
  simp [copyBuffer, bytes, segments]

/-- To prepend a chain to the head of a circular list is to append it at the end. -/
@[simp] theorem bytes_prependChain (data other : IOBuf) :
    (data.prependChain other).bytes = data.bytes ++ other.bytes := by
  simp [prependChain, bytes, segments]

end IOBuf

/-- The signed 32-bit offset converted to `size_type`: a negative offset
becomes a position that no string reaches. -/
def insertPosition (offset : BitVec 32) : Nat := (offset.signExtend 64).toNat

/-- `offset += len`: the sum is taken in 64 bits and stored in 32. -/
def advance (offset : BitVec 32) (len : Nat) : BitVec 32 :=
  (offset.signExtend 64 + BitVec.ofNat 64 len).setWidth 32

/-- The loop of `to_string`. `string::insert` throws at a position beyond the
end of the string. -/
def toStringLoop : List Bytes → Bytes → BitVec 32 → Throws Bytes
  | [], ret, _ => .ok ret
  | buf :: rest, ret, offset =>
      if ret.length < insertPosition offset then .error .std
      else
        toStringLoop rest
          (ret.take (insertPosition offset) ++ buf ++ ret.drop (insertPosition offset))
          (advance offset buf.length)

def toString (buffer : IOBuf) : Throws Bytes := toStringLoop buffer.segments [] 0

theorem insertPosition_ofNat {n : Nat} (h : n < 2 ^ 31) :
    insertPosition (BitVec.ofNat 32 n) = n := by
  have hMsb : (BitVec.ofNat 32 n).msb = false := by
    rw [BitVec.msb_eq_false_iff_two_mul_lt, BitVec.toNat_ofNat]
    omega
  rw [insertPosition, BitVec.signExtend_eq_setWidth_of_msb_false hMsb, BitVec.toNat_setWidth,
    BitVec.toNat_ofNat]
  omega

/-- Storing the 64-bit sum in 32 bits is addition in 32 bits. -/
theorem advance_ofNat (n len : Nat) :
    advance (BitVec.ofNat 32 n) len = BitVec.ofNat 32 (n + len) := by
  rw [advance, BitVec.setWidth_add _ _ (by decide), BitVec.ofNat_add]
  congr 1
  · apply BitVec.eq_of_getLsbD_eq
    intro i hi
    have hWide : i < 64 := by omega
    simp only [BitVec.getLsbD_setWidth, BitVec.getLsbD_signExtend, hi, hWide, decide_true,
      Bool.true_and, if_true]
  · exact BitVec.setWidth_ofNat_of_le (by decide) _

/-- While the running offset is the length built so far and fits in 31 bits,
the loop appends every segment. -/
theorem toStringLoop_eq (segments : List Bytes) (ret : Bytes)
    (hSize : ret.length + segments.flatten.length < 2 ^ 31) :
    toStringLoop segments ret (BitVec.ofNat 32 ret.length) = .ok (ret ++ segments.flatten) := by
  induction segments generalizing ret with
  | nil => simp [toStringLoop]
  | cons buf rest ih =>
      simp only [List.flatten_cons, List.length_append] at hSize
      have hRest := ih (ret ++ buf) (by simp only [List.length_append]; omega)
      rw [toStringLoop, insertPosition_ofNat (by omega), if_neg (by omega),
        advance_ofNat, List.take_length, List.drop_length, List.append_nil]
      simpa using hRest

/-- A chain of less than 2^31 bytes is read out exactly. -/
theorem toString_eq (buffer : IOBuf) (hSize : buffer.bytes.length < 2 ^ 31) :
    toString buffer = .ok buffer.bytes :=
  toStringLoop_eq buffer.segments [] (by simpa only [List.length_nil, Nat.zero_add, IOBuf.bytes] using hSize)

end Nozomi
