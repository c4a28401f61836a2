import Nozomi.Serving.Program

/-! What the file system holds outside of `public` is of no consequence to the program,
as long as no request keeps a network root. -/
namespace Nozomi

open Text Filesystem Execution RouteParsing StreamingFileHandler

/-- Two file systems answer alike about a path. -/
structure FileSystem.SameAt (fs other : FileSystem) (path : Bytes) : Prop where
  isRegularFile : other.isRegularFile path = fs.isRegularFile path
  lastWriteTime : other.lastWriteTime path = fs.lastWriteTime path
  ifstream : other.ifstream path = fs.ifstream path

theorem FileSystem.SameAt.symm {fs other : FileSystem} {path : Bytes} (h : fs.SameAt other path) :
    other.SameAt fs path := ⟨h.isRegularFile.symm, h.lastWriteTime.symm, h.ifstream.symm⟩

namespace FileTransfer

variable {fs other : FileSystem} {handler : StreamingFileHandler}

/-- A file handler asks the file system about its own path, and about no other. -/
theorem onEOM_sameAt (h : fs.SameAt other handler.path) (transfer : FileTransfer) :
    transfer.onEOM other handler = transfer.onEOM fs handler := by
  have hModified : notModified other handler = notModified fs handler := by
    rw [notModified, notModified, h.lastWriteTime]
  rw [onEOM, onEOM, h.isRegularFile, hModified]

/-- A transfer takes the same steps on file systems that agree on the path of its
handler, as it asks them about nothing else. -/
theorem step_sameAt (h : fs.SameAt other handler.path) (allocator : Allocator handler.readBufferSize)
    (transfer : FileTransfer) (event : Event) :
    step other handler allocator transfer event = step fs handler allocator transfer event := by
  cases event with
  | openFile => simp only [step, h.ifstream]
  | _ => rfl

end FileTransfer

namespace SimpleServer

/-- A request that keeps no network root after the first slash of its path, or is no
request for a file. -/
def StaysInside (uri : UriLibrary) (message : HTTPMessage) : Prop :=
  ∀ rest, HTTPRequest.getMethodAndPath uri message = (.get, slash :: rest) → keepsParentRoot rest = false

/-- Two file systems that differ only outside of `public`. -/
def SameInside (fs other : FileSystem) : Prop :=
  ∀ path, Inside (ascii "public") path → fs.SameAt other path

/-- A path outside of `public` may fail to be looked up or not, without any difference
inside. -/
theorem sameInside_emptyFileSystem {failing : Bytes} (hOutside : ¬Inside (ascii "public") failing) :
    SameInside (emptyFileSystem none) (emptyFileSystem (some failing)) := by
  intro path hInside
  have hOther : some failing ≠ some path := by
    intro hSame
    exact hOutside (Option.some.inj hSame ▸ hInside)
  exact ⟨by simp only [emptyFileSystem, if_neg hOther, reduceCtorEq, if_false], rfl, rfl⟩

theorem rest_ne_nil {rest : Bytes} (hKeeps : keepsParentRoot rest = true) : rest ≠ [] := by
  rintro rfl
  cases hKeeps

/-- A file handler that looks for a file inside of `public`. -/
def Confined : Exchange FileRequest → Prop
  | .streamed request => Inside (ascii "public") request.handler.path
  | _ => True

/-- The messages that an event brings stay inside. -/
def BringsInside (uri : UriLibrary) : Exchange.Event Tm FileRequest.Event → Prop
  | .receive message _ => StaysInside uri message
  | _ => True

/-- The program on another file system. -/
def Platform.withFiles {ρ : Type} (platform : Platform ρ) (fs : FileSystem) : Platform ρ :=
  { platform with fs := fs }

variable {ρ : Type} {platform : Platform ρ} {made : List (Route ρ)} {s t : Exchange FileRequest}
  {event : Exchange.Event Tm FileRequest.Event}

/-- A request whose file lies inside of `public` takes the same steps on file
systems that agree there. This is what one step contributes to the comparison of
whole runs. -/
theorem step_sameInside {other : FileSystem} (hSame : SameInside platform.fs other) (h : Confined s) :
    Exchange.step (files (platform.withFiles other)) ((platform.withFiles other).factory made) s event =
      Exchange.step (files platform) (platform.factory made) s event := by
  cases s with
  | streamed request =>
      have hHere := hSame request.handler.path h
      cases event with
      | stream event =>
          have hStep : FileRequest.step other platform.allocator request event =
              FileRequest.step platform.fs platform.allocator request event := by
            cases event <;>
              simp only [FileRequest.step, FileTransfer.onEOM_sameAt hHere, FileTransfer.step_sameAt hHere]
          exact congrArg (Option.map (Except.map Exchange.streamed)) hStep
      | receive | handle => rfl
  | _ => cases event <;> rfl

section Program

variable (hLibrary : ∀ pattern ∈ patterns, Handles platform.library pattern)
  (hConversions : platform.conversions.Documented) (hMade : routes platform.library = .ok made)
  (hPosix : platform.paths.Posix)

include hLibrary hConversions hMade hPosix

/-- A message that keeps no network root is given a handler whose file lies inside
of `public`, or one that looks for no file. -/
theorem receive_confined {message : HTTPMessage} (hStays : StaysInside platform.uri message)
    {expireTime : Tm}
    (h : Exchange.receive (files platform) (platform.factory made) message expireTime = .ok t) :
    Confined t := by
  rw [receive_eq hLibrary hConversions hMade] at h
  cases hServe : serve (HTTPRequest.getMethodAndPath platform.uri message).1
      (HTTPRequest.getMethodAndPath platform.uri message).2 with
  | httpHandler requestTimeout handler =>
      rw [hServe] at h
      obtain rfl := Except.ok.inj h
      trivial
  | streamingHandler object args =>
      rw [hServe] at h
      obtain rfl := Except.ok.inj h
      obtain ⟨hGet, rest, hPath, rfl⟩ := serve_streaming hServe
      exact (inside_public_iff hPosix platform.time expireTime ⟨message, IOBuf.create⟩ rest).mpr
        (hStays rest (Prod.ext hGet hPath))

/-- A request stays confined: its file is chosen when it is received, and never
again. -/
theorem step_confined (hConfined : Confined s) (hStays : BringsInside platform.uri event)
    (h : Exchange.step (files platform) (platform.factory made) s event = some (.ok t)) : Confined t := by
  cases Exchange.step_cases h with
  | receive hMade' => exact receive_confined hLibrary hConversions hMade hPosix hStays hMade'
  | handle => trivial
  | stream hStep =>
      cases FileRequest.step_cases hStep with
      | onEOM | transfer => exact hConfined

variable {ι : Type} [DecidableEq ι]

/-- Every run on one file system is a run on the other one. The induction is over
the run, with all of its requests confined so far. -/
theorem serves_sameInside {other : FileSystem} (hSame : SameInside platform.fs other)
    {events : List (ι × Exchange.Event Tm FileRequest.Event)} {final : Service ι FileRequest}
    (hStays : ∀ event ∈ events, BringsInside platform.uri event.2) (run : Serves platform made events final) :
    Serves (platform.withFiles other) made events final := by
  apply (run.strengthen (fun event => BringsInside platform.uri event.2) hStays).transfer
    (fun s => ∀ i, Confined (s.each i))
  · exact fun _ => trivial
  · intro s event t hConfined hAllowed hStep
    apply interleave_forall hConfined hStep
    intro next hNext
    exact step_confined hLibrary hConversions hMade hPosix (hConfined event.1) hAllowed.2 hNext
  · intro s event hConfined _
    refine ⟨trivial, ?_⟩
    rw [Service.step, Service.step, interleave, interleave, step_sameInside hSame (hConfined event.1)]

omit hPosix in
/-- The request for a file is received, and what its end does is left. The handler has
been given the path that it looks for by then. -/
theorem serves_request_iff {message : HTTPMessage} {rest : Bytes}
    (hRequest : HTTPRequest.getMethodAndPath platform.uri message = (.get, slash :: rest))
    (hKeeps : keepsParentRoot rest = true) (i : ι) (expireTime : Tm) {final : Service ι FileRequest} :
    Serves platform made [(i, .receive message expireTime), (i, .stream .onEOM)] final ↔
      Service.step (files platform) (platform.factory made)
        ⟨Function.update (fun _ => .idle) i
          (.streamed ⟨fileHandlerFor platform rest message expireTime, false, .waiting⟩), false⟩
        (i, .stream .onEOM) = some final := by
  have hReceive : Exchange.receive (files platform) (platform.factory made) message expireTime =
      .ok (.streamed ⟨fileHandlerFor platform rest message expireTime, false, .waiting⟩) := by
    rw [receive_eq hLibrary hConversions hMade, hRequest, serve_get (rest_ne_nil hKeeps)]
    rfl
  have hFirst : Service.step (files platform) (platform.factory made) Service.start
      (i, .receive message expireTime) = some ⟨Function.update (fun _ => .idle) i
        (.streamed ⟨fileHandlerFor platform rest message expireTime, false, .waiting⟩), false⟩ :=
    interleave_ok rfl (congrArg some hReceive)
  constructor
  · intro run
    cases run with
    | cons _ first run =>
        obtain rfl := Option.some.inj (hFirst.symm.trans first)
        cases run with
        | cons _ second run =>
            cases run
            exact second
  · intro hEnd
    exact .cons trivial hFirst (.cons trivial hEnd (.nil _))

omit hLibrary hConversions hMade hPosix in
/-- The end of the message of a file request. -/
theorem step_onEOM (handler : StreamingFileHandler) :
    Exchange.step (files platform) (platform.factory made) (.streamed ⟨handler, false, .waiting⟩)
        (.stream .onEOM) =
      some ((FileTransfer.waiting.onEOM platform.fs handler).map fun transfer =>
        .streamed ⟨handler, true, transfer⟩) := by
  have hStep : FileRequest.step platform.fs platform.allocator ⟨handler, false, .waiting⟩ .onEOM =
      some ((FileTransfer.waiting.onEOM platform.fs handler).map fun transfer => ⟨handler, true, transfer⟩) := by
    rw [FileRequest.step]
    exact if_pos ⟨rfl, rfl, rfl⟩
  have hMade : Exchange.step (files platform) (platform.factory made)
      (.streamed ⟨handler, false, .waiting⟩) (.stream .onEOM) =
        (FileRequest.step platform.fs platform.allocator ⟨handler, false, .waiting⟩ .onEOM).map
          (Except.map Exchange.streamed) := rfl
  rw [hMade, hStep]
  cases FileTransfer.waiting.onEOM platform.fs handler <;> rfl

omit hPosix in
/-- A request that is answered at the end of its message leaves the program running. -/
theorem serves_answered {message : HTTPMessage} {rest : Bytes}
    (hRequest : HTTPRequest.getMethodAndPath platform.uri message = (.get, slash :: rest))
    (hKeeps : keepsParentRoot rest = true) (i : ι) (expireTime : Tm) {transfer : FileTransfer}
    (hAnswered : FileTransfer.waiting.onEOM platform.fs (fileHandlerFor platform rest message expireTime) =
      .ok transfer) :
    ∃ final, Serves platform made [(i, .receive message expireTime), (i, .stream .onEOM)] final ∧
      final.crashed = false := by
  have hStep : Exchange.step (files platform) (platform.factory made)
      (Function.update (fun _ : ι => Exchange.idle) i
        (.streamed ⟨fileHandlerFor platform rest message expireTime, false, .waiting⟩) i)
      (.stream .onEOM) =
        some (.ok (.streamed ⟨fileHandlerFor platform rest message expireTime, true, transfer⟩)) := by
    rw [Function.update_self, step_onEOM, hAnswered]
    rfl
  exact ⟨_, (serves_request_iff hLibrary hConversions hMade hRequest hKeeps i expireTime).mpr
    (interleave_ok rfl hStep), rfl⟩

omit hPosix in
/-- An exception at the end of its message ends the program, since `onEOM` is declared
`noexcept`. -/
theorem serves_thrown {message : HTTPMessage} {rest : Bytes}
    (hRequest : HTTPRequest.getMethodAndPath platform.uri message = (.get, slash :: rest))
    (hKeeps : keepsParentRoot rest = true) {i : ι} {expireTime : Tm} {thrown : Thrown}
    (hThrown : FileTransfer.waiting.onEOM platform.fs (fileHandlerFor platform rest message expireTime) =
      .error thrown) {final : Service ι FileRequest}
    (hServes : Serves platform made [(i, .receive message expireTime), (i, .stream .onEOM)] final) :
    final.crashed = true := by
  have hEnd := (serves_request_iff hLibrary hConversions hMade hRequest hKeeps i expireTime).mp hServes
  rcases (interleave_cases hEnd).2 with ⟨next, hNext, _⟩ | ⟨_, _, rfl⟩
  · dsimp only at hNext
    rw [Function.update_self, step_onEOM, hThrown] at hNext
    cases hNext
  · rfl

/-- What the file system holds outside of `public` makes no difference to any run of
the program, however its requests take their steps, if and only if no message that
may arrive keeps a network root. -/
theorem confined_iff [Inhabited ι] (Allowed : HTTPMessage → Prop) :
    (∀ fs other, SameInside fs other →
        ∀ (events : List (ι × Exchange.Event Tm FileRequest.Event)) final,
          (∀ i message expireTime, (i, .receive message expireTime) ∈ events → Allowed message) →
            (Serves (platform.withFiles fs) made events final ↔
              Serves (platform.withFiles other) made events final)) ↔
      ∀ message, Allowed message → StaysInside platform.uri message := by
  constructor
  · intro hSame message hAllowed rest hRequest
    by_contra hKeeps
    rw [Bool.not_eq_false] at hKeeps
    let expireTime : Tm := ⟨0, 0, 0, 0, 0, 0, 0, 0, 0⟩
    let handler := fileHandlerFor platform rest message expireTime
    have hOutside : ¬Inside (ascii "public") handler.path := by
      intro hInside
      have hNot := (inside_public_iff hPosix platform.time expireTime ⟨message, IOBuf.create⟩ rest).mp hInside
      rw [hKeeps] at hNot
      cases hNot
    have hMessages : ∀ i other time, (i, .receive other time) ∈
        [((default : ι), (.receive message expireTime : Exchange.Event Tm FileRequest.Event)),
          (default, .stream .onEOM)] → Allowed other := by
      intro i other time hMem
      obtain ⟨_, rfl, _⟩ : i = default ∧ other = message ∧ time = expireTime := by simpa using hMem
      exact hAllowed
    -- on one file system the request is answered, and on the other the program ends
    obtain ⟨final, hServes, hGoesOn⟩ := @serves_answered _ (platform.withFiles (emptyFileSystem none)) _
      hLibrary hConversions hMade _ _ _ _ hRequest hKeeps (default : ι) expireTime
      (FileTransfer.waiting.answer 404) rfl
    have hThrown : FileTransfer.waiting.onEOM (emptyFileSystem (some handler.path)) handler =
        .error .std := by
      have hRegular : (emptyFileSystem (some handler.path)).isRegularFile handler.path = .error .std :=
        if_pos rfl
      rw [FileTransfer.onEOM, hRegular]
      rfl
    have hEnds := @serves_thrown _ (platform.withFiles (emptyFileSystem (some handler.path))) _ hLibrary
      hConversions hMade _ _ _ _ hRequest hKeeps _ _ _ hThrown _
      ((hSame _ _ (sameInside_emptyFileSystem hOutside) _ _ hMessages).mp hServes)
    rw [hGoesOn] at hEnds
    cases hEnds
  · intro hStays fs other hSame events final hAllowed
    have hEvents : ∀ event ∈ events, BringsInside platform.uri event.2 := by
      intro event hMem
      obtain ⟨i, event⟩ := event
      cases event with
      | receive message expireTime => exact hStays message (hAllowed i message expireTime hMem)
      | _ => trivial
    constructor
    · intro run
      exact @serves_sameInside _ (platform.withFiles fs) _ hLibrary hConversions hMade hPosix
        _ _ _ hSame _ _ hEvents run
    · intro run
      exact @serves_sameInside _ (platform.withFiles other) _ hLibrary hConversions hMade hPosix
        _ _ _ (fun path hInside => (hSame path hInside).symm) _ _ hEvents run

end Program

/-- The request of `GET ///../secret`. -/
theorem confined_iff_example : ∃ made, routes patternLibrary = .ok made ∧
    ¬∀ fs other, SameInside fs other →
      ∀ (events : List (Bool × Exchange.Event Tm FileRequest.Event)) final,
        (∀ i message expireTime, (i, .receive message expireTime) ∈ events →
          message = ⟨some .get, ascii "///../secret", []⟩) →
        (Serves (emptyPlatform.withFiles fs) made events final ↔
          Serves (emptyPlatform.withFiles other) made events final) := by
  obtain ⟨made, hMade, _⟩ := every_request_is_served handles_patterns
  refine ⟨made, hMade, fun hSame => ?_⟩
  have hStays := (@confined_iff _ emptyPlatform _ handles_patterns strictConversions_documented hMade
    posix_posix Bool _ _ _).mp hSame
  have hPath : HTTPRequest.getMethodAndPath uriDecoder ⟨some .get, ascii "///../secret", []⟩ =
      (.get, slash :: ascii "//../secret") := by decide +kernel
  have hKept := hStays _ rfl _ hPath
  cases hKept

end SimpleServer

end Nozomi
