import Nozomi.Filesystem.Reading
import Nozomi.Handling.PathContainment
import Nozomi.Handling.FileStreaming
import Nozomi.Handling.StreamingDelivery

/-! Whether the file handler gets to the end of its response. The read loop
waits for the end of the file, and the file type is asked for in a way that
throws. -/
namespace Nozomi

open Text Filesystem

namespace StreamingFileHandler

section Loop

variable {size : Nat} (allocator : Allocator size)

/-- A loop whose reads come to the end of the file has sent some bodies then. The
induction is over the number of these reads. -/
theorem readLoop_completes {count : Nat} {fin : InputStream}
    (hEnd : (fin.afterReads size count).eof = true) (call : Nat) (handler : StreamingHTTPHandler) :
    ∃ bodies : List IOBuf, ∀ fuel, count < fuel → readLoop allocator fuel call fin handler =
      some { handler with evb := handler.evb ++ bodies.map .sendBody } := by
  induction count generalizing fin call handler with
  | zero =>
      refine ⟨[], ?_⟩
      intro fuel hFuel
      obtain ⟨fuel, rfl⟩ := Nat.exists_eq_add_of_le' hFuel
      simpa using readLoop_eof allocator fuel call fin handler hEnd
  | succ count ih =>
      by_cases hEof : fin.eof = true
      · refine ⟨[], ?_⟩
        intro fuel hFuel
        obtain ⟨fuel, rfl⟩ := Nat.exists_eq_add_of_le' (Nat.zero_lt_of_lt hFuel)
        simpa using readLoop_eof allocator fuel call fin handler hEof
      · let data := IOBuf.copyBuffer (readChunk allocator call fin).1.data
        have hRest : ((readChunk allocator call fin).2.afterReads size count).eof = true := hEnd
        obtain ⟨bodies, hBodies⟩ := ih hRest (call + 1) (handler.sendBody data)
        refine ⟨(if data.length = 0 then [] else [data]) ++ bodies, ?_⟩
        intro fuel hFuel
        obtain ⟨fuel, rfl⟩ := Nat.exists_eq_add_of_le' (Nat.zero_lt_of_lt hFuel)
        rw [readLoop_step allocator fuel call fin handler (by simpa using hEof),
          hBodies fuel (by omega), StreamingHTTPHandler.sendBody]
        by_cases hLength : data.length = 0
        · simp [hLength]
        · simp [hLength, StreamingHTTPHandler.runInEventBaseThread]

/-- Where the loop ends, the end of the file was met in one of its reads. The
induction is over the fuel, with the stream that each round leaves. -/
theorem readLoop_reachesEnd {fuel call : Nat} {fin : InputStream}
    {handler final : StreamingHTTPHandler}
    (h : readLoop allocator fuel call fin handler = some final) : fin.ReachesEnd size := by
  induction fuel generalizing call fin handler with
  | zero => cases h
  | succ fuel ih =>
      by_cases hEof : fin.eof = true
      · exact ⟨0, hEof⟩
      · rw [readLoop_step allocator fuel call fin handler (by simpa using hEof)] at h
        obtain ⟨count, hEnd⟩ := ih h
        exact ⟨count + 1, hEnd⟩

end Loop

/-- What the task on the I/O executor leaves is followed by the end of message. -/
theorem onEOM_streams {fs : FileSystem} {handler : StreamingFileHandler}
    (allocator : Allocator handler.readBufferSize) {fin : InputStream}
    (hRegular : fs.isRegularFile handler.path = .ok true)
    (hModified : notModified fs handler = false) (hOpen : fs.ifstream handler.path = some fin)
    (fuel : Nat) :
    onEOM fs handler allocator fuel = .ok ((readLoop allocator fuel 0 fin
      (handler.base.sendResponseHeaders (HTTPResponse.ofStatus 200))).map
        StreamingHTTPHandler.sendEOF) := by
  simp only [onEOM, hRegular, hModified, streamFile, hOpen]
  rfl

/-- The read loop ends, and the end of message is sent, exactly if the device
does not fail before the end of the file is met. -/
theorem onEOM_ends_iff (fs : FileSystem) (handler : StreamingFileHandler)
    (allocator : Allocator handler.readBufferSize) (content : Bytes) (fault : Option Nat)
    (hSize : 1 ≤ handler.readBufferSize) (hRegular : fs.isRegularFile handler.path = .ok true)
    (hModified : notModified fs handler = false)
    (hOpen : fs.ifstream handler.path = some (.openedOn content fault)) :
    (∃ sent enough, ∀ fuel, enough ≤ fuel →
        readLoop allocator fuel 0 (.openedOn content fault)
          (handler.base.sendResponseHeaders (HTTPResponse.ofStatus 200)) = some sent ∧
        onEOM fs handler allocator fuel = .ok (some sent.sendEOF)) ↔
      ∀ k ∈ fault, content.length < k := by
  rw [← InputStream.reachesEnd_openedOn_iff hSize]
  constructor
  · rintro ⟨sent, enough, hSent⟩
    exact readLoop_reachesEnd allocator (hSent enough (Nat.le_refl _)).1
  · rintro ⟨count, hEnd⟩
    obtain ⟨bodies, hBodies⟩ := readLoop_completes allocator hEnd 0
      (handler.base.sendResponseHeaders (HTTPResponse.ofStatus 200))
    refine ⟨{ handler.base.sendResponseHeaders (HTTPResponse.ofStatus 200) with
      evb := (handler.base.sendResponseHeaders (HTTPResponse.ofStatus 200)).evb ++
        bodies.map .sendBody }, count + 1, ?_⟩
    intro fuel hFuel
    refine ⟨hBodies fuel hFuel, ?_⟩
    rw [onEOM_streams allocator hRegular hModified hOpen, hBodies fuel hFuel]
    rfl

/-- A file system with one regular file on a device that may fail. -/
def faultyFile (content : Bytes) (fault : Option Nat) : FileSystem where
  isRegularFile _ := .ok true
  lastWriteTime _ := some 0
  ifstream _ := some (.openedOn content fault)

theorem onEOM_ends_example :
    ∃ sent enough, ∀ fuel, enough ≤ fuel →
      readLoop (constantAllocator (ascii "full") (by decide) : Allocator 4) fuel 0
        (.openedOn (ascii "hello") (some 6))
        (StreamingHTTPHandler.create.sendResponseHeaders (HTTPResponse.ofStatus 200)) = some sent ∧
      onEOM (faultyFile (ascii "hello") (some 6)) (create (ascii "www") 4)
        (constantAllocator (ascii "full") (by decide)) fuel = .ok (some sent.sendEOF) :=
  (onEOM_ends_iff (faultyFile (ascii "hello") (some 6)) (create (ascii "www") 4)
    (constantAllocator (ascii "full") (by decide)) (ascii "hello") (some 6) (by decide) rfl rfl
    rfl).mpr fun k hk => by
      obtain rfl := Option.some.inj hk
      decide

/-- The first byte of the file cannot be read: the handler reads on for ever. -/
theorem onEOM_reads_forever :
    ¬∃ fuel final, onEOM (faultyFile (ascii "hi") (some 0)) (create (ascii "www") 4)
      (constantAllocator (ascii "full") (by decide)) fuel = .ok (some final) := by
  rintro ⟨fuel, final, hFinal⟩
  rw [onEOM_streams _ rfl rfl rfl] at hFinal
  obtain ⟨sent, hSent, _⟩ := Option.map_eq_some_iff.mp (Except.ok.inj hFinal)
  have hEarly := (InputStream.reachesEnd_openedOn_iff (by decide) (ascii "hi") (some 0)).mp
    (readLoop_reachesEnd _ hSent) 0 rfl
  contradiction

end StreamingFileHandler

/-- What `stat` tells about a path. -/
inductive FileStatus where
  | regular
  | other
  | notFound
  | undetermined
  deriving DecidableEq

/-- `is_regular_file` without an error code throws if the status could not be
determined, unless that is because there is no such file. -/
def FileStatus.isRegularFile : FileStatus → Throws Bool
  | regular => .ok true
  | other | notFound => .ok false
  | undetermined => .error .std

def FileSystem.ofStatus (status : Bytes → FileStatus) (lastWriteTime : Bytes → Option Int)
    (ifstream : Bytes → Option InputStream) : FileSystem :=
  ⟨fun path => (status path).isRegularFile, lastWriteTime, ifstream⟩

/-- One block of headers first, bodies only after the status 200, and one end of
message last. -/
def CompleteResponse (emissions : List Emission) : Prop :=
  ∃ code ∈ [404, 304, 200], ∃ bodies : List IOBuf,
    emissions = .headers code [] :: bodies.map .body ++ [.eom] ∧ (code ≠ 200 → bodies = [])

namespace StreamingFileHandler

theorem emissions_ofStatus (code : Int16) :
    (Task.sendResponseHeaders (HTTPResponse.ofStatus code)).emissions = [.headers code []] := by
  simp [Task.emissions, Task.passedBodies_sendResponseHeaders, HTTPResponse.ofStatus,
    HTTPResponse.getBody, IOBuf.clone, IOBuf.create, IOBuf.length]

/-- What a handler that has sent nothing yet emits for a status and some bodies. -/
theorem emissions_response (code : Int16) (bodies : List IOBuf) :
    StreamingHTTPHandler.emissions ⟨true, .sendResponseHeaders (HTTPResponse.ofStatus code) ::
      bodies.map .sendBody ++ [.sendEOF]⟩ = .headers code [] :: bodies.map .body ++ [.eom] := by
  have hBodies : (bodies.map Task.sendBody).flatMap Task.emissions = bodies.map .body := by
    induction bodies with
    | nil => rfl
    | cons data bodies ih => simpa [Task.emissions] using ih
  rw [StreamingHTTPHandler.emissions_eq, List.flatMap_append, List.flatMap_cons,
    emissions_ofStatus, hBodies]
  rfl

/-- A handler that was constructed, given its arguments, and sent a request. -/
def received (library : PathLibrary) (time : TimeLibrary) (expireTime : Tm) (basePath : Bytes)
    (readBufferSize : Nat) (rawPath : Bytes) (request : HTTPRequest) : StreamingFileHandler :=
  onRequestReceived library time expireTime
    ((create basePath readBufferSize).setRequestArgs rawPath) request

theorem onRequestReceived_base (library : PathLibrary) (time : TimeLibrary) (expireTime : Tm)
    (handler : StreamingFileHandler) (request : HTTPRequest) :
    (onRequestReceived library time expireTime handler request).base = handler.base := by
  unfold onRequestReceived
  split
  · rfl
  · dsimp only
    split <;> rfl

theorem received_base (library : PathLibrary) (time : TimeLibrary) (expireTime : Tm)
    (basePath : Bytes) (readBufferSize : Nat) (rawPath : Bytes) (request : HTTPRequest) :
    (received library time expireTime basePath readBufferSize rawPath request).base = .create :=
  onRequestReceived_base library time expireTime _ request

/-- Each way through `onEOM` that does not throw ends in a complete response: for a
missing file, an unchanged one and one that is sent. -/
theorem onEOM_completes {fs : FileSystem} {handler : StreamingFileHandler}
    (allocator : Allocator handler.readBufferSize) (hBase : handler.base = .create)
    {regular : Bool} (hRegular : fs.isRegularFile handler.path = .ok regular)
    (hReads : ∀ fin, fs.ifstream handler.path = some fin → fin.ReachesEnd handler.readBufferSize) :
    ∃ final enough, CompleteResponse final.emissions ∧
      ∀ fuel, enough ≤ fuel → onEOM fs handler allocator fuel = .ok (some final) := by
  have hShort : ∀ code ∈ [404, 304, 200], CompleteResponse
      (handler.base.sendResponseHeaders (HTTPResponse.ofStatus code)).sendEOF.emissions := by
    intro code hCode
    rw [hBase]
    exact ⟨code, hCode, [], emissions_response code [], fun _ => rfl⟩
  cases regular with
  | false =>
      refine ⟨_, 0, hShort 404 (by simp), ?_⟩
      intro fuel _
      simp only [onEOM, hRegular]
      rfl
  | true =>
      cases hModified : notModified fs handler with
      | true =>
          refine ⟨_, 0, hShort 304 (by simp), ?_⟩
          intro fuel _
          simp only [onEOM, hRegular, hModified]
          rfl
      | false =>
          cases hOpen : fs.ifstream handler.path with
          | none =>
              refine ⟨_, 0, hShort 404 (by simp), ?_⟩
              intro fuel _
              simp only [onEOM, hRegular, hModified, streamFile, hOpen]
              rfl
          | some fin =>
              obtain ⟨count, hEnd⟩ := hReads fin hOpen
              obtain ⟨bodies, hBodies⟩ := readLoop_completes allocator hEnd 0
                (handler.base.sendResponseHeaders (HTTPResponse.ofStatus 200))
              rw [hBase] at hBodies
              refine ⟨⟨true, .sendResponseHeaders (HTTPResponse.ofStatus 200) ::
                bodies.map .sendBody ++ [.sendEOF]⟩, count + 1,
                ⟨200, by simp, bodies, emissions_response 200 bodies, by simp⟩, ?_⟩
              intro fuel hFuel
              rw [onEOM_streams allocator hRegular hModified hOpen, hBase, hBodies fuel hFuel]
              rfl

/-- The response is complete exactly if the status of the file can be
determined. Otherwise an exception leaves a function declared `noexcept`. -/
theorem onEOM_completes_iff (library : PathLibrary) (time : TimeLibrary) (expireTime : Tm)
    (basePath rawPath : Bytes) (readBufferSize : Nat) (request : HTTPRequest)
    (status : Bytes → FileStatus) (lastWriteTime : Bytes → Option Int)
    (ifstream : Bytes → Option InputStream) {handler : StreamingFileHandler}
    (hHandler : handler =
      received library time expireTime basePath readBufferSize rawPath request)
    (allocator : Allocator handler.readBufferSize)
    (hReads : ∀ fin, ifstream handler.path = some fin → fin.ReachesEnd handler.readBufferSize) :
    (∃ final enough, CompleteResponse final.emissions ∧ ∀ fuel, enough ≤ fuel →
        onEOM (.ofStatus status lastWriteTime ifstream) handler allocator fuel =
          .ok (some final)) ↔
      status handler.path ≠ .undetermined := by
  have hBase : handler.base = .create := hHandler ▸ received_base ..
  constructor
  · rintro ⟨final, enough, _, hFinal⟩ hStatus
    have hRegular : (FileSystem.ofStatus status lastWriteTime ifstream).isRegularFile handler.path =
        .error .std := by
      simp only [FileSystem.ofStatus, hStatus]
      rfl
    have hRun := hFinal enough (Nat.le_refl _)
    simp only [onEOM, hRegular] at hRun
    cases hRun
  · intro hStatus
    have hRegular : ∃ regular, (FileSystem.ofStatus status lastWriteTime ifstream).isRegularFile
        handler.path = .ok regular := by
      simp only [FileSystem.ofStatus]
      cases hCase : status handler.path with
      | regular => exact ⟨true, rfl⟩
      | other | notFound => exact ⟨false, rfl⟩
      | undetermined => exact absurd hCase hStatus
    obtain ⟨regular, hRegular⟩ := hRegular
    exact onEOM_completes allocator hBase hRegular hReads

/-- A server that parses no dates, with a request for a path below `www`. -/
def receivedPath (rawPath : Bytes) : StreamingFileHandler :=
  received posix ⟨fun _ _ _ => none, fun _ => 0⟩ ⟨0, 0, 0, 0, 0, 0, 0, 0, 0⟩ (ascii "www") 4 rawPath
    ⟨⟨none, [], []⟩, .create⟩

/-- A file system that holds `www/a`, and takes names of up to 255 bytes. -/
def shortNames : FileSystem :=
  .ofStatus
    (fun path => if path = ascii "www/a" then .regular
      else if ∀ name ∈ parts path, name.length ≤ 255 then .notFound else .undetermined)
    (fun _ => none)
    (fun path => if path = ascii "www/a" then some (.openedOn (ascii "hello") none) else none)

/-- A file system that only rejects names that are too long: every other request
gets a complete response. -/
theorem onEOM_completes_example :
    ∃ final enough, CompleteResponse final.emissions ∧ ∀ fuel, enough ≤ fuel →
      onEOM shortNames (receivedPath (ascii "a"))
        (constantAllocator (ascii "full") (by decide)) fuel = .ok (some final) := by
  have hPath : (receivedPath (ascii "a")).path = ascii "www/a" := by decide
  have hHandler : receivedPath (ascii "a") = received posix _ _ _ _ _ _ := rfl
  refine (onEOM_completes_iff posix _ _ _ _ _ _ _ _ _ hHandler _ ?_).mpr ?_
  · intro fin hOpen
    rw [hPath, if_pos rfl] at hOpen
    obtain rfl := Option.some.inj hOpen
    exact (InputStream.reachesEnd_openedOn_iff (by decide) _ _).mpr (by simp)
  · rw [hPath]
    decide

/-- The name is too long for `stat`, which is no report that the file is missing. -/
theorem onEOM_throws :
    onEOM shortNames (receivedPath (List.replicate 256 0x61))
        (constantAllocator (ascii "full") (by decide)) 1 = .error .std ∧
      ¬∃ fuel result, onEOM shortNames (receivedPath (List.replicate 256 0x61))
        (constantAllocator (ascii "full") (by decide)) fuel = .ok result := by
  have hStatus : shortNames.isRegularFile (receivedPath (List.replicate 256 0x61)).path =
      .error .std := by decide +kernel
  constructor
  · simp only [onEOM, hStatus]
    rfl
  · rintro ⟨fuel, result, hResult⟩
    simp only [onEOM, hStatus] at hResult
    cases hResult

end StreamingFileHandler

end Nozomi
