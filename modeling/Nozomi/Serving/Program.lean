import Nozomi.Handling.StreamingLifecycle
import Nozomi.Serving.Service
import Nozomi.Serving.SimpleServer

/-! The example program at work. Each of its requests is answered by a function, or by
a file handler of its own that works on two threads. -/
namespace Nozomi

open Text Filesystem Execution RouteParsing

namespace FileTransfer

/-- A handler that has received a request but not its end: there is no I/O task. -/
def waiting : FileTransfer := { start with io := .finished }

/-- A response without a body. -/
def answer (transfer : FileTransfer) (statusCode : Int16) : FileTransfer :=
  (transfer.call (·.sendResponseHeaders (HTTPResponse.ofStatus statusCode))).call (·.sendEOF)

/-- `onEOM` up to its `via`: an answer is queued at once, or the I/O task is scheduled. -/
def onEOM (fs : FileSystem) (handler : StreamingFileHandler) (transfer : FileTransfer) :
    Throws FileTransfer := do
  let regular ← fs.isRegularFile handler.path
  if !regular then return transfer.answer 404
  else if StreamingFileHandler.notModified fs handler then return transfer.answer 304
  else return { transfer with io := .scheduled }

end FileTransfer

/-- A request for a file. `onEOM` has been called for it, or not yet. -/
structure FileRequest where
  handler : StreamingFileHandler
  received : Bool
  transfer : FileTransfer

namespace FileRequest

inductive Event where
  | onEOM
  | transfer (event : FileTransfer.Event)
  deriving DecidableEq

variable (fs : FileSystem) (allocator : ∀ size, Allocator size)

/-- The transport calls `onEOM` once, and not after an error. The handler ignores the
body of its request, so no event brings a piece of it. -/
def step (request : FileRequest) : Event → Option (Throws FileRequest)
  | .onEOM =>
      if request.received = false ∧ request.transfer.alive ∧ request.transfer.evb = [] then
        some ((request.transfer.onEOM fs request.handler).map fun transfer =>
          { request with received := true, transfer := transfer })
      else none
  | .transfer event =>
      (request.transfer.step fs request.handler (allocator _) event).map fun transfer =>
        .ok { request with transfer := transfer }

/-- What one step can do, if no exception leaves it. -/
inductive Step (request : FileRequest) : Event → FileRequest → Prop where
  | onEOM {transfer : FileTransfer} (hWaiting : request.received = false)
      (hLeft : request.transfer.onEOM fs request.handler = .ok transfer) :
      Step request .onEOM { request with received := true, transfer := transfer }
  | transfer {transfer : FileTransfer} {event : FileTransfer.Event}
      (hStep : request.transfer.step fs request.handler (allocator _) event = some transfer) :
      Step request (.transfer event) { request with transfer := transfer }

variable {fs allocator}

theorem step_cases {s t : FileRequest} {event : Event} (h : step fs allocator s event = some (.ok t)) :
    Step fs allocator s event t := by
  cases event with
  | onEOM =>
      obtain ⟨hEnabled, hNext⟩ := Option.ite_none_right_eq_some.mp h
      cases hLeft : s.transfer.onEOM fs s.handler with
      | error thrown =>
          rw [hLeft] at hNext
          cases hNext
      | ok transfer =>
          rw [hLeft] at hNext
          obtain rfl := Except.ok.inj (Option.some.inj hNext)
          exact .onEOM hEnabled.1 hLeft
  | transfer event =>
      obtain ⟨transfer, hStep, hNext⟩ := Option.map_eq_some_iff.mp h
      obtain rfl := Except.ok.inj hNext
      exact .transfer hStep

end FileRequest

namespace SimpleServer

/-- The libraries of the program, and the system that it runs on. -/
structure Platform (ρ : Type) where
  library : RegexLibrary ρ
  uri : UriLibrary
  conversions : Conversions
  paths : PathLibrary
  time : TimeLibrary
  fs : FileSystem
  allocator : ∀ size, Allocator size

/-- A file system without files, which may fail when it is asked about one path. -/
def emptyFileSystem (failing : Option Bytes) : FileSystem where
  isRegularFile path := if failing = some path then .error .std else .ok false
  lastWriteTime _ := none
  ifstream _ := none

/-- A platform without files. -/
def emptyPlatform : Platform (Pattern Byte Bytes) where
  library := patternLibrary
  uri := uriDecoder
  conversions := strictConversions
  paths := posix
  time := ⟨fun _ _ _ => none, fun _ => 0⟩
  fs := emptyFileSystem none
  allocator size := ⟨fun _ => List.replicate size 0, fun _ => by rw [List.length_replicate]⟩

/-- The only streaming handler of the program is the one for files, and it is given
the path after its first slash. -/
theorem serve_streaming {method : HTTPMethod} {path : Bytes} {object : StreamingObject}
    {args : List RouteArg} (h : serve method path = .streamingHandler object args) :
    method = .get ∧ ∃ rest, path = slash :: rest ∧ args = [.string rest] := by
  unfold serve always at h
  split_ifs at h with _ _ _ hSlash hGet
  obtain ⟨rest, hPath⟩ := List.head?_eq_some_iff.mp hSlash
  obtain ⟨_, rfl⟩ := RequestHandler.streamingHandler.inj h
  exact ⟨hGet, rest, hPath, by rw [hPath, List.tail_cons]⟩

/-- Every path but the root is looked for as a file. -/
theorem serve_get {rest : Bytes} (h : rest ≠ []) :
    serve .get (slash :: rest) = .streamingHandler fileHandler [.string rest] := by
  have hOther : slash :: rest ≠ ascii "/" := fun hRoot => h (List.cons.inj hRoot).2
  unfold serve
  rw [if_neg fun h => hOther h.1, if_neg (by simp), if_neg (by simp), List.head?_cons, if_pos rfl,
    if_pos rfl, List.tail_cons]

/-- A route with one placeholder gives the file handler one argument. -/
def pathOf : List RouteArg → Bytes
  | [.string path] => path
  | _ => []

section Requests

variable {ρ : Type} (platform : Platform ρ)

/-- The file handler after `onRequestReceived`. It has been given its path before. -/
def fileHandlerFor (path : Bytes) (message : HTTPMessage) (expireTime : Tm) : StreamingFileHandler :=
  StreamingFileHandler.onRequestReceived platform.paths platform.time expireTime
    (StreamingFileHandler.setRequestArgs (.create (ascii "public") 4096) path) ⟨message, IOBuf.create⟩

/-- The file handlers of the program. What was on the stack in the place of
`expireTime` comes with the message. -/
def files : Streaming Tm FileRequest FileRequest.Event where
  onRequest _ args message expireTime :=
    .ok ⟨fileHandlerFor platform (pathOf args) message expireTime, false, .waiting⟩
  step := FileRequest.step platform.fs platform.allocator
  emissions request := request.transfer.responseBuilder.emitted

variable (made : List (Route ρ))

/-- The factory of the running program. -/
def Platform.factory : HTTPHandlerFactory :=
  SimpleServer.factory platform.library platform.uri platform.conversions made

/-- A run of the program, with any number of requests that take their steps in any
order. -/
abbrev Serves {ι : Type} [DecidableEq ι] (events : List (ι × Exchange.Event Tm FileRequest.Event))
    (final : Service ι FileRequest) : Prop :=
  Service.Serves (files platform) (platform.factory made) events final

variable {platform made}

/-- Every request is given the handler that it should have. -/
theorem receive_eq (hLibrary : ∀ pattern ∈ patterns, Handles platform.library pattern)
    (hConversions : platform.conversions.Documented) (hMade : routes platform.library = .ok made)
    (message : HTTPMessage) (expireTime : Tm) :
    Exchange.receive (files platform) (platform.factory made) message expireTime =
      Exchange.onRequest (files platform) (platform.factory made).router message expireTime
        (serve (HTTPRequest.getMethodAndPath platform.uri message).1
          (HTTPRequest.getMethodAndPath platform.uri message).2) := by
  obtain ⟨same, hSame, hServed⟩ := every_request_is_served hLibrary
  obtain rfl := Except.ok.inj (hSame.symm.trans hMade)
  rw [Exchange.receive, Platform.factory, hServed platform.uri platform.conversions message hConversions]
  rfl

end Requests

end SimpleServer

end Nozomi
