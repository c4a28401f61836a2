import Nozomi.Handling.StreamingFileHandler

/-! What the read loop of the file handler sends. Each buffer is filled up to
the requested size, but it is trimmed as if it had no more room than that. -/
namespace Nozomi

open Text Filesystem

/-- The bytes that a task hands to the response as body. -/
def Task.bodyBytes : Task → Bytes
  | .sendBody data => data.bytes
  | .sendResponseHeaders _ | .sendEOF => []

/-- All bytes handed to the response through `sendBody` so far. -/
def StreamingHTTPHandler.sentBody (handler : StreamingHTTPHandler) : Bytes :=
  handler.evb.flatMap Task.bodyBytes

namespace StreamingHTTPHandler

@[simp] theorem sentBody_sendResponseHeaders (handler : StreamingHTTPHandler)
    (response : HTTPResponse) : (handler.sendResponseHeaders response).sentBody = handler.sentBody := by
  simp [sentBody, sendResponseHeaders, runInEventBaseThread, Task.bodyBytes]

@[simp] theorem sentBody_sendEOF (handler : StreamingHTTPHandler) :
    handler.sendEOF.sentBody = handler.sentBody := by
  simp [sentBody, sendEOF, runInEventBaseThread, Task.bodyBytes]

/-- A single buffer is sent whole, whether or not it is empty. -/
@[simp] theorem sentBody_sendBody (handler : StreamingHTTPHandler) (text : Bytes) :
    (handler.sendBody (IOBuf.copyBuffer text)).sentBody = handler.sentBody ++ text := by
  unfold sendBody
  split
  · rename_i hLength
    have hNil : text = [] := List.eq_nil_of_length_eq_zero hLength
    simp [hNil]
  · simp [sentBody, runInEventBaseThread, Task.bodyBytes]

end StreamingHTTPHandler

namespace StreamingFileHandler

section Loop

variable {size : Nat} (allocator : Allocator size)

/-- The capacity that a buffer has beyond what was asked for. -/
def excess (call : Nat) : Nat := (allocator.storage call).length - size

/-- Reading delivers the next bytes, counts them, and meets the end of the
file exactly if there were too few. -/
theorem read_open (rest : Bytes) (gcount n : Nat) :
    (InputStream.mk rest none false false gcount).read n =
      (rest.take n, ⟨rest.drop n, none, decide (rest.length < n), decide (rest.length < n),
        (rest.take n).length⟩) := by
  by_cases hLength : n ≤ rest.length
  · simp [InputStream.read, InputStream.available, hLength]
  · have hShort : rest.length < n := by omega
    have hTake : rest.take n = rest := List.take_of_length_le (by omega)
    have hDrop : rest.drop n = [] := List.drop_eq_nil_of_le (by omega)
    simp [InputStream.read, InputStream.available, hLength, hTake, hDrop, hShort]

/-- What one chunk sends: the bytes read and, behind them, as much of the old
storage as the buffer has room beyond the request. -/
def chunkSent (call : Nat) (rest : Bytes) : Bytes :=
  rest.take size ++
    ((allocator.storage call).drop (rest.take size).length).take (excess allocator call)

/-- What the loop sends when `full` reads are filled before the last one. -/
def loopSent : Nat → Nat → Bytes → Bytes
  | 0, call, rest => chunkSent allocator call rest
  | full + 1, call, rest =>
      chunkSent allocator call rest ++ loopSent full (call + 1) (rest.drop size)

/-- A read takes the next bytes of the file, one buffer at most, and sends what the
storage holds: these bytes and the excess of the storage. -/
theorem readChunk_open (call : Nat) (rest : Bytes) (gcount : Nat) (hSize : 1 ≤ size) :
    (readChunk allocator call ⟨rest, none, false, false, gcount⟩).1.data =
        chunkSent allocator call rest ∧
      (readChunk allocator call ⟨rest, none, false, false, gcount⟩).2 =
        ⟨rest.drop size, none, decide (rest.length < size), decide (rest.length < size),
          (rest.take size).length⟩ := by
  have hRequested := allocator.requested_le call
  have hTake : (rest.take size).length ≤ size := by rw [List.length_take]; omega
  have hEmpty : (allocator.create call).length < size := hSize
  simp only [readChunk, if_pos hEmpty, read_open, chunkSent]
  refine ⟨?_, trivial⟩
  split
  · have hKept : (allocator.storage call).length - (size - (rest.take size).length) =
        (rest.take size).length + excess allocator call := by
      unfold excess
      omega
    simp only [Buffer.trimEnd, Buffer.write, Buffer.append, Buffer.data, Buffer.tailroom,
      Buffer.capacity, Allocator.create, Nat.sub_zero, Nat.zero_add]
    rw [hKept, List.take_length_add_append]
  · have hFull : (allocator.storage call).length =
        (rest.take size).length + excess allocator call := by
      unfold excess
      omega
    simp only [Buffer.write, Buffer.append, Buffer.data, Buffer.tailroom,
      Buffer.capacity, Allocator.create, Nat.sub_zero, Nat.zero_add]
    rw [hFull, List.take_length_add_append]

theorem readLoop_eof (fuel call : Nat) (fin : InputStream) (handler : StreamingHTTPHandler)
    (hEof : fin.eof = true) : readLoop allocator (fuel + 1) call fin handler = some handler := by
  simp [readLoop, hEof]

theorem readLoop_step (fuel call : Nat) (fin : InputStream) (handler : StreamingHTTPHandler)
    (hEof : fin.eof = false) :
    readLoop allocator (fuel + 1) call fin handler =
      readLoop allocator fuel (call + 1) (readChunk allocator call fin).2
        (handler.sendBody (IOBuf.copyBuffer (readChunk allocator call fin).1.data)) := by
  simp [readLoop, hEof]

/-- With enough fuel the loop ends after the first short read. The induction is over
the number of full reads before it. -/
theorem readLoop_open (hSize : 1 ≤ size) (full call : Nat) (rest : Bytes) (gcount : Nat)
    (handler : StreamingHTTPHandler) (hFull : rest.length / size = full) :
    ∃ final, final.sentBody = handler.sentBody ++ loopSent allocator full call rest ∧
      ∀ fuel, full + 2 ≤ fuel →
        readLoop allocator fuel call ⟨rest, none, false, false, gcount⟩ handler = some final := by
  induction full generalizing call rest gcount handler with
  | zero =>
      obtain ⟨hData, hStream⟩ := readChunk_open allocator call rest gcount hSize
      have hShort : rest.length < size := (Nat.div_eq_zero_iff_lt hSize).mp hFull
      refine ⟨handler.sendBody (IOBuf.copyBuffer (chunkSent allocator call rest)),
        handler.sentBody_sendBody _, ?_⟩
      intro fuel hFuel
      obtain ⟨fuel, rfl⟩ := Nat.exists_eq_add_of_le' hFuel
      rw [readLoop_step allocator _ _ _ _ rfl, hData, hStream]
      exact readLoop_eof allocator _ _ _ _ (by simpa using hShort)
  | succ full ih =>
      obtain ⟨hData, hStream⟩ := readChunk_open allocator call rest gcount hSize
      have hLong : ¬rest.length < size := by
        intro hShort
        rw [Nat.div_eq_of_lt hShort] at hFull
        omega
      have hRest : (rest.drop size).length / size = full := by
        have hDiv := Nat.div_eq_sub_div hSize (Nat.not_lt.mp hLong)
        rw [List.length_drop]
        omega
      obtain ⟨final, hSent, hLoop⟩ := ih (call + 1) (rest.drop size) (rest.take size).length
        (handler.sendBody (IOBuf.copyBuffer (chunkSent allocator call rest))) hRest
      refine ⟨final, by simpa [loopSent] using hSent, ?_⟩
      intro fuel hFuel
      obtain ⟨fuel, rfl⟩ := Nat.exists_eq_add_of_le' hFuel
      rw [show fuel + (full + 1 + 2) = fuel + (full + 2) + 1 by omega,
        readLoop_step allocator _ _ _ _ rfl, hData, hStream]
      simpa only [hLong, decide_false] using hLoop (fuel + (full + 2)) (by omega)

theorem length_chunkSent (call : Nat) (rest : Bytes) :
    (chunkSent allocator call rest).length =
      (rest.take size).length + excess allocator call := by
  have hRequested := allocator.requested_le call
  have hTake : (rest.take size).length ≤ size := by rw [List.length_take]; omega
  rw [chunkSent, List.length_append, Nat.add_left_cancel_iff, List.length_take, List.length_drop,
    excess]
  omega

/-- Every excess byte is sent on top of the bytes of the file, chunk by chunk. -/
theorem length_loopSent (full call : Nat) (rest : Bytes) (hFull : rest.length ≤ size * (full + 1)) :
    (loopSent allocator full call rest).length =
      rest.length + ((List.range (full + 1)).map fun i => excess allocator (call + i)).sum := by
  induction full generalizing call rest with
  | zero =>
      rw [loopSent, length_chunkSent, List.take_of_length_le (by omega)]
      simp
  | succ full ih =>
      have hRest := ih (call + 1) (rest.drop size)
        (by rw [List.length_drop]; rw [Nat.mul_add] at hFull; omega)
      have hSum : ((List.range (full + 1 + 1)).map fun i => excess allocator (call + i)).sum =
          excess allocator call +
            ((List.range (full + 1)).map fun i => excess allocator (call + 1 + i)).sum := by
        rw [List.range_succ_eq_map]
        simp [Function.comp_def, Nat.add_assoc, Nat.add_comm 1]
      rw [loopSent, List.length_append, hRest, length_chunkSent, hSum, List.length_drop,
        List.length_take]
      omega

/-- Without any excess the chunks are the file, cut into pieces. -/
theorem loopSent_eq (full call : Nat) (rest : Bytes) (hFull : rest.length ≤ size * (full + 1))
    (hExcess : ∀ i ≤ full, excess allocator (call + i) = 0) :
    loopSent allocator full call rest = rest := by
  induction full generalizing call rest with
  | zero =>
      have hNone := hExcess 0 (Nat.le_refl _)
      rw [Nat.add_zero] at hNone
      rw [loopSent, chunkSent, hNone, List.take_of_length_le (by omega)]
      simp
  | succ full ih =>
      have hNone := hExcess 0 (Nat.zero_le _)
      rw [Nat.add_zero] at hNone
      have hRest := ih (call + 1) (rest.drop size)
        (by rw [List.length_drop]; rw [Nat.mul_add] at hFull; omega)
        (fun i hi => by simpa only [Nat.add_assoc, Nat.add_comm 1] using hExcess (i + 1) (by omega))
      rw [loopSent, hRest, chunkSent, hNone]
      simp

/-- The loop sends the file exactly if no buffer is larger than requested. -/
theorem loopSent_eq_iff (full call : Nat) (rest : Bytes) (hFull : rest.length ≤ size * (full + 1)) :
    loopSent allocator full call rest = rest ↔ ∀ i ≤ full, excess allocator (call + i) = 0 := by
  refine ⟨?_, loopSent_eq allocator full call rest hFull⟩
  intro hSent i hi
  have hLength := length_loopSent allocator full call rest hFull
  rw [hSent] at hLength
  have hZero : ((List.range (full + 1)).map fun i => excess allocator (call + i)).sum = 0 := by
    omega
  exact List.sum_eq_zero_iff_forall_eq_nat.mp hZero _
    (List.mem_map_of_mem (List.mem_range.mpr (by omega)))

/-- There is no excess exactly if the storage is as large as it was asked for. -/
theorem excess_eq_zero_iff (call : Nat) :
    excess allocator call = 0 ↔ (allocator.storage call).length = size := by
  have := allocator.requested_le call
  unfold excess
  omega

end Loop

/-- A file that opens and reads without an error is sent exactly if every
buffer that the loop asks for has just the requested capacity. -/
theorem onEOM_sends_iff (fs : FileSystem) (handler : StreamingFileHandler)
    (allocator : Allocator handler.readBufferSize) (content : Bytes)
    (hSize : 1 ≤ handler.readBufferSize) (hRegular : fs.isRegularFile handler.path = .ok true)
    (hModified : notModified fs handler = false)
    (hOpen : fs.ifstream handler.path = some (.opened content)) :
    (∃ final, (∀ fuel, content.length / handler.readBufferSize + 2 ≤ fuel →
        onEOM fs handler allocator fuel = .ok (some final)) ∧
        final.sentBody = handler.base.sentBody ++ content) ↔
      ∀ call ≤ content.length / handler.readBufferSize,
        (allocator.storage call).length = handler.readBufferSize := by
  have hCeil : content.length ≤
      handler.readBufferSize * (content.length / handler.readBufferSize + 1) :=
    Nat.le_of_lt (Nat.lt_mul_div_succ _ hSize)
  obtain ⟨final, hSent, hLoop⟩ := readLoop_open allocator hSize _ 0 content 0
    (handler.base.sendResponseHeaders (HTTPResponse.ofStatus 200)) rfl
  have hRun : ∀ fuel, content.length / handler.readBufferSize + 2 ≤ fuel →
      onEOM fs handler allocator fuel = .ok (some final.sendEOF) := by
    intro fuel hFuel
    have hStream := hLoop fuel hFuel
    simp only [onEOM, hRegular, hModified, streamFile, hOpen, InputStream.opened, hStream]
    rfl
  have hExact : final.sendEOF.sentBody = handler.base.sentBody ++ content ↔
      ∀ call ≤ content.length / handler.readBufferSize,
        (allocator.storage call).length = handler.readBufferSize := by
    rw [StreamingHTTPHandler.sentBody_sendEOF, hSent,
      StreamingHTTPHandler.sentBody_sendResponseHeaders, List.append_cancel_left_eq,
      loopSent_eq_iff allocator _ 0 content hCeil]
    simp only [Nat.zero_add, excess_eq_zero_iff]
  rw [← hExact]
  constructor
  · rintro ⟨other, hOther, hBytes⟩
    have hSame := (hOther _ (Nat.le_refl _)).symm.trans (hRun _ (Nat.le_refl _))
    obtain rfl : other = final.sendEOF := by simpa using hSame
    exact hBytes
  · intro hBytes
    exact ⟨final.sendEOF, hRun, hBytes⟩

/-- A file system with one regular file. -/
def oneFile (content : Bytes) : FileSystem where
  isRegularFile _ := .ok true
  lastWriteTime _ := some 0
  ifstream _ := some (.opened content)

/-- An allocator that always returns the same storage. -/
def constantAllocator {requested : Nat} (storage : Bytes) (h : requested ≤ storage.length) :
    Allocator requested := ⟨fun _ => storage, fun _ => h⟩

/-- A file of five bytes and a buffer of four: the second chunk is sent with what
the buffer held before. -/
theorem onEOM_sends_hello :
    ∃ final, (∀ fuel, 3 ≤ fuel → onEOM (oneFile (ascii "hello")) (create (ascii "www") 4)
        (constantAllocator (ascii "full") (by decide)) fuel = .ok (some final)) ∧
      final.sentBody = ascii "hello" :=
  (onEOM_sends_iff (oneFile (ascii "hello")) (create (ascii "www") 4)
    (constantAllocator (ascii "full") (by decide)) (ascii "hello") (by decide) rfl rfl rfl).mpr
    fun _ _ => rfl

/-- Eight bytes of room for four requested: old bytes follow the file. -/
theorem onEOM_sends_old_bytes :
    ∃ final, (∀ fuel, 2 ≤ fuel → onEOM (oneFile (ascii "hi")) (create (ascii "www") 4)
        (constantAllocator (ascii "password") (by decide)) fuel = .ok (some final)) ∧
      final.sentBody = ascii "hisswo" ∧ final.sentBody ≠ ascii "hi" := by
  refine ⟨((StreamingHTTPHandler.create.sendResponseHeaders (HTTPResponse.ofStatus 200)).sendBody
    (IOBuf.copyBuffer (ascii "hisswo"))).sendEOF, ?_, rfl, by decide⟩
  intro fuel hFuel
  obtain ⟨fuel, rfl⟩ := Nat.exists_eq_add_of_le' hFuel
  rfl

end StreamingFileHandler

end Nozomi
