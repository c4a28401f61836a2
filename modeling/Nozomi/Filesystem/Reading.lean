import Nozomi.Filesystem.InputStream

/-! Reads of one size from a stream, up to the end of its file. A device that
fails before that keeps the stream from ever reporting the end. -/
namespace Filesystem

open Text

namespace InputStream

/-- A stream that was opened on a file whose device may fail. -/
def openedOn (content : Bytes) (fault : Option Nat) : InputStream := ⟨content, fault, false, false, 0⟩

def afterReads (size : Nat) : Nat → InputStream → InputStream
  | 0, stream => stream
  | count + 1, stream => afterReads size count (stream.read size).2

/-- Some number of reads makes the stream report the end of the file. -/
def ReachesEnd (size : Nat) (stream : InputStream) : Prop :=
  ∃ count, (afterReads size count stream).eof = true

/-- No read has failed yet, and the device delivers the whole file. -/
structure Sound (stream : InputStream) : Prop where
  eof : stream.eof = false
  fail : stream.fail = false
  fault : ∀ k ∈ stream.fault, stream.rest.length < k

/-- The device has failed, or it will before the end of the file is met. -/
structure Failing (stream : InputStream) : Prop where
  eof : stream.eof = false
  fault : stream.fail = true ∨ ∃ k ≤ stream.rest.length, stream.fault = some k

theorem available_eq_rest {stream : InputStream} (h : stream.Sound) :
    stream.available = stream.rest := by
  unfold available
  cases hFault : stream.fault with
  | none => rfl
  | some k => exact List.take_of_length_le (Nat.le_of_lt (h.fault k hFault))

/-- A read from a sound stream ends it, or it takes the next bytes off. The cases are
whether a whole buffer is left. -/
theorem Sound.read {stream : InputStream} (h : stream.Sound) (size : Nat) :
    (stream.read size).2.eof = true ∨
      (stream.read size).2.Sound ∧ size ≤ stream.rest.length ∧
        (stream.read size).2.rest = stream.rest.drop size := by
  by_cases hFull : size ≤ stream.rest.length
  · have hTake : (stream.rest.take size).length = size := by rw [List.length_take]; omega
    have hAfter : (stream.read size).2 =
        { stream with
          rest := stream.rest.drop size
          fault := stream.fault.map (· - size)
          gcount := size } := by
      simp only [InputStream.read, available_eq_rest h, h.eof, h.fail, hFull, hTake, Bool.false_eq_true,
        or_self, if_false, if_true]
    refine Or.inr ⟨?_, hFull, by rw [hAfter]⟩
    rw [hAfter]
    refine ⟨h.eof, h.fail, ?_⟩
    intro left hLeft
    obtain ⟨k, hk, rfl⟩ := Option.map_eq_some_iff.mp hLeft
    have hFault := h.fault k hk
    simp only [List.length_drop]
    omega
  · have hNoFault : stream.fault ≠ some stream.rest.length := fun hk =>
      Nat.lt_irrefl _ (h.fault _ hk)
    refine Or.inl ?_
    simp only [InputStream.read, available_eq_rest h, h.eof, h.fail, hFull, hNoFault, Bool.false_eq_true,
      or_self, if_false, Nat.lt_irrefl]

theorem length_available_of_fault {stream : InputStream} {k : Nat} (hFault : stream.fault = some k)
    (hk : k ≤ stream.rest.length) : stream.available.length = k := by
  rw [available, hFault]
  exact List.length_take_of_le hk

/-- A failing stream goes on failing, and it does not report the end, since its device
fails before. -/
theorem Failing.read {stream : InputStream} (h : stream.Failing) (size : Nat) :
    (stream.read size).2.Failing := by
  by_cases hFail : stream.fail = true
  · have hAfter : (stream.read size).2 = { stream with fail := true, gcount := 0 } := by
      simp only [InputStream.read, hFail, or_true, if_true]
    rw [hAfter]
    exact ⟨h.eof, Or.inl rfl⟩
  · obtain ⟨k, hk, hFault⟩ := h.fault.resolve_left hFail
    have hAvailable := length_available_of_fault hFault hk
    have hOpen : ¬(stream.eof = true ∨ stream.fail = true) := by simp [h.eof, hFail]
    by_cases hFull : size ≤ k
    · have hTake : (stream.available.take size).length = size := by rw [List.length_take]; omega
      have hAfter : (stream.read size).2 =
          { stream with
            rest := stream.rest.drop size
            fault := stream.fault.map (· - size)
            gcount := size } := by
        simp only [InputStream.read, if_neg hOpen, hAvailable, hFull, hTake, if_true]
      rw [hAfter]
      refine ⟨h.eof, Or.inr ⟨k - size, ?_, by simp [hFault]⟩⟩
      simp only [List.length_drop]
      omega
    · have hEarly : k < stream.rest.length ∨ stream.fault = some stream.rest.length := by
        rcases Nat.lt_or_eq_of_le hk with hLess | hSame
        · exact Or.inl hLess
        · exact Or.inr (hSame ▸ hFault)
      have hAfter : (stream.read size).2.eof = stream.eof ∧ (stream.read size).2.fail = true := by
        simp only [InputStream.read, if_neg hOpen, hAvailable, if_neg hFull, if_pos hEarly, and_self]
      exact ⟨hAfter.1.trans h.eof, Or.inl hAfter.2⟩

/-- The end of a sound stream is met after one read more than there are full ones. The
induction is over their number. -/
theorem Sound.ends {size : Nat} (hSize : 1 ≤ size) {stream : InputStream} (h : stream.Sound) :
    ∃ count ≤ stream.rest.length / size + 1, (afterReads size count stream).eof = true := by
  induction hFull : stream.rest.length / size generalizing stream with
  | zero =>
      rcases h.read size with hEnd | ⟨_, hLong, _⟩
      · exact ⟨1, Nat.le_refl _, hEnd⟩
      · have hShort := (Nat.div_eq_zero_iff_lt hSize).mp hFull
        omega
  | succ full ih =>
      rcases h.read size with hEnd | ⟨hSound, hLong, hRest⟩
      · exact ⟨1, by omega, hEnd⟩
      · have hFewer : (stream.read size).2.rest.length / size = full := by
          have hDiv := Nat.div_eq_sub_div hSize hLong
          rw [hRest, List.length_drop]
          omega
        obtain ⟨count, hCount, hEnd⟩ := ih hSound hFewer
        exact ⟨count + 1, by omega, hEnd⟩

/-- On a sound device the end of the file is met after some reads, as each of them
takes a byte at least. -/
theorem Sound.reachesEnd {size : Nat} (hSize : 1 ≤ size) {stream : InputStream} (h : stream.Sound) :
    stream.ReachesEnd size := by
  obtain ⟨count, _, hEnd⟩ := h.ends hSize
  exact ⟨count, hEnd⟩

theorem Failing.afterReads {stream : InputStream} (h : stream.Failing) (size count : Nat) :
    (afterReads size count stream).Failing := by
  induction count generalizing stream with
  | zero => exact h
  | succ count ih => exact ih (h.read size)

/-- The end of a file is met exactly if its device does not fail before. -/
theorem reachesEnd_openedOn_iff {size : Nat} (hSize : 1 ≤ size) (content : Bytes)
    (fault : Option Nat) :
    (openedOn content fault).ReachesEnd size ↔ ∀ k ∈ fault, content.length < k := by
  constructor
  · rintro ⟨count, hEnd⟩ k hk
    by_contra hEarly
    have hFailing : (openedOn content fault).Failing := ⟨rfl, Or.inr ⟨k, Nat.not_lt.mp hEarly, hk⟩⟩
    have hOpen := (hFailing.afterReads size count).eof
    rw [hEnd] at hOpen
    contradiction
  · intro hFault
    have hSound : (openedOn content fault).Sound := ⟨rfl, rfl, hFault⟩
    exact hSound.reachesEnd hSize

end InputStream

end Filesystem
