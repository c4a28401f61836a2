import Mathlib.Algebra.Ring.Nat
import Nozomi.Text.Bytes

/-! File input streams and the storage that a read fills. A stream reads the
bytes of a file in order; the device below it may fail at any point. -/
namespace Filesystem

open Text

/-- An open `std::ifstream`. A `fault` of `some k` means that the device fails
once `k` more bytes have been delivered. -/
structure InputStream where
  rest : Bytes
  fault : Option Nat
  eof : Bool
  fail : Bool
  gcount : Nat

namespace InputStream

/-- A stream opened without an error, at the start of a file. -/
def opened (content : Bytes) : InputStream := ⟨content, none, false, false, 0⟩

/-- The bytes that the device can still deliver. -/
def available (stream : InputStream) : Bytes :=
  match stream.fault with
  | none => stream.rest
  | some k => stream.rest.take k

/-- `istream::read`: the next `n` bytes, or fewer. A stream that is not good
delivers nothing and keeps its `eofbit`. A device error sets the error bits
but not `eofbit`; running out of bytes sets `eofbit` as well. -/
def read (stream : InputStream) (n : Nat) : Bytes × InputStream :=
  if stream.eof ∨ stream.fail then ([], { stream with fail := true, gcount := 0 })
  else
    let bytes := stream.available.take n
    let after := { stream with
      rest := stream.rest.drop bytes.length
      fault := stream.fault.map (· - bytes.length)
      gcount := bytes.length }
    if n ≤ stream.available.length then (bytes, after)
    else if stream.available.length < stream.rest.length ∨
        stream.fault = some stream.rest.length then (bytes, { after with fail := true })
    else (bytes, { after with eof := true, fail := true })

end InputStream

/-- One block of memory of which the first `length` bytes are data. -/
structure Buffer where
  storage : Bytes
  length : Nat
  length_le : length ≤ storage.length

namespace Buffer

def capacity (buffer : Buffer) : Nat := buffer.storage.length

def tailroom (buffer : Buffer) : Nat := buffer.capacity - buffer.length

def data (buffer : Buffer) : Bytes := buffer.storage.take buffer.length

/-- More of the storage becomes data, with whatever bytes it holds. -/
def append (buffer : Buffer) (amount : Nat) (h : amount ≤ buffer.tailroom) : Buffer where
  storage := buffer.storage
  length := buffer.length + amount
  length_le := by
    have := buffer.length_le
    simp only [tailroom, capacity] at h
    omega

def trimEnd (buffer : Buffer) (amount : Nat) : Buffer where
  storage := buffer.storage
  length := buffer.length - amount
  length_le := Nat.le_trans (Nat.sub_le _ _) buffer.length_le

/-- Bytes written at `writableData()`, the start of the storage. -/
def write (buffer : Buffer) (bytes : Bytes) : Buffer where
  storage := bytes ++ buffer.storage.drop bytes.length
  length := buffer.length
  length_le := by
    have := buffer.length_le
    simp only [List.length_append, List.length_drop]
    omega

end Buffer

/-- The documented `IOBuf::create(requested)`: every buffer it returns is empty
and has at least the requested capacity. Each call may get another capacity,
and storage that still holds old bytes. -/
structure Allocator (requested : Nat) where
  storage : Nat → Bytes
  requested_le : ∀ call, requested ≤ (storage call).length

def Allocator.create {requested : Nat} (allocator : Allocator requested) (call : Nat) : Buffer where
  storage := allocator.storage call
  length := 0
  length_le := Nat.zero_le _

end Filesystem
