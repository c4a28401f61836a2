import Nozomi.Message.HTTP

/-! The base of all streaming handlers. Each of its three send functions puts
a task on the queue of the event base, and the task calls the response builder. -/
namespace Nozomi

open Text

/-- The calls a task makes on the response builder. -/
inductive BuilderCall where
  | status (code : Int16)
  | header (code : HTTPHeaderCode) (value : Bytes)
  | body (data : IOBuf)
  | send
  | sendWithEOM
  deriving DecidableEq

/-- What reaches the transport. -/
inductive Emission where
  | headers (code : Int16) (headers : HTTPHeaders)
  | body (data : IOBuf)
  | eom
  deriving DecidableEq

/-- The response builder as documented: the status call opens a header block,
header calls extend it, body calls collect one chain, and a send call emits the
block if one is open, then the chain if there is one, then the end of message
if asked for. The headers that it adds to frame the body are not kept. -/
structure ResponseBuilder where
  headers : Option (Int16 × HTTPHeaders)
  body : Option IOBuf
  emitted : List Emission

namespace ResponseBuilder

def empty : ResponseBuilder := ⟨none, none, []⟩

def flush (builder : ResponseBuilder) (sendEOM : Bool) : ResponseBuilder where
  headers := none
  body := none
  emitted := builder.emitted ++
    (builder.headers.map fun block => .headers block.1 block.2).toList ++
    (builder.body.map .body).toList ++ if sendEOM then [.eom] else []

def call (builder : ResponseBuilder) : BuilderCall → ResponseBuilder
  | .status code => { builder with headers := some (code, []) }
  | .header code value =>
      { builder with headers := builder.headers.map fun block => (block.1, block.2 ++ [(code, value)]) }
  | .body data =>
      { builder with body := some (builder.body.elim data fun collected => collected.prependChain data) }
  | .send => builder.flush false
  | .sendWithEOM => builder.flush true

end ResponseBuilder

/-- A class of response builders, and what can be told of one: the open block, the
collected chain, and what it has sent. -/
structure BuilderLibrary (β : Type) where
  create : β
  call : β → BuilderCall → β
  headers : β → Option (Int16 × HTTPHeaders)
  body : β → Option IOBuf
  emitted : β → List Emission

namespace BuilderLibrary

variable {β : Type} (library : BuilderLibrary β)

def tells (builder : β) : ResponseBuilder := ⟨library.headers builder, library.body builder, library.emitted builder⟩

/-- What proxygen documents of its response builder. -/
structure Documented : Prop where
  create : library.tells library.create = .empty
  status : ∀ builder code, library.tells (library.call builder (.status code)) =
    { library.tells builder with headers := some (code, []) }
  header : ∀ builder code value, library.tells (library.call builder (.header code value)) =
    { library.tells builder with
      headers := (library.headers builder).map fun block => (block.1, block.2 ++ [(code, value)]) }
  body : ∀ builder data, library.tells (library.call builder (.body data)) =
    { library.tells builder with
      body := some ((library.body builder).elim data fun collected => collected.prependChain data) }
  send : ∀ builder, library.tells (library.call builder .send) = (library.tells builder).flush false
  sendWithEOM : ∀ builder, library.tells (library.call builder .sendWithEOM) = (library.tells builder).flush true

variable {library}

/-- What the builder tells after a call is what it told before, and the call. -/
theorem tells_call (hLibrary : library.Documented) (builder : β) (call : BuilderCall) :
    library.tells (library.call builder call) = (library.tells builder).call call := by
  cases call with
  | status code => exact hLibrary.status builder code
  | header code value => exact hLibrary.header builder code value
  | body data => exact hLibrary.body builder data
  | send => exact hLibrary.send builder
  | sendWithEOM => exact hLibrary.sendWithEOM builder

/-- All response builders that keep to the documentation send the same for the same calls. -/
theorem emitted_calls (hLibrary : library.Documented) (calls : List BuilderCall) :
    library.emitted (calls.foldl library.call library.create) =
      (calls.foldl ResponseBuilder.call .empty).emitted := by
  have hTells : library.tells (calls.foldl library.call library.create) =
      calls.foldl ResponseBuilder.call (library.tells library.create) :=
    (List.foldl_hom library.tells fun builder call => (tells_call hLibrary builder call).symm).symm
  rw [← hLibrary.create, ← hTells]
  rfl

/-- The executable builder. -/
def recorded : BuilderLibrary ResponseBuilder where
  create := .empty
  call := ResponseBuilder.call
  headers := ResponseBuilder.headers
  body := ResponseBuilder.body
  emitted := ResponseBuilder.emitted

theorem recorded_documented : recorded.Documented :=
  ⟨rfl, fun _ _ => rfl, fun _ _ _ => rfl, fun _ _ => rfl, fun _ => rfl, fun _ => rfl⟩

end BuilderLibrary

/-- The closures that the send functions queue. -/
inductive Task where
  | sendResponseHeaders (response : HTTPResponse)
  | sendBody (data : IOBuf)
  | sendEOF
  deriving DecidableEq

/-- The response builder rejects bodies of length 0, hence the guard. -/
def Task.calls : Task → List BuilderCall
  | .sendResponseHeaders response =>
      .status response.statusCode ::
        response.headers.map (fun header => .header header.1 header.2) ++
        (if response.getBody.length ≠ 0 then [.body response.getBody] else []) ++ [.send]
  | .sendBody data => [.body data, .send]
  | .sendEOF => [.sendWithEOM]

structure StreamingHTTPHandler where
  sentHeaders : Bool
  evb : List Task

namespace StreamingHTTPHandler

/-- A handler before anything was sent. -/
def create : StreamingHTTPHandler := ⟨false, []⟩

def runInEventBaseThread (handler : StreamingHTTPHandler) (task : Task) : StreamingHTTPHandler :=
  { handler with evb := handler.evb ++ [task] }

def sendResponseHeaders (handler : StreamingHTTPHandler) (response : HTTPResponse) :
    StreamingHTTPHandler :=
  { handler with sentHeaders := true }.runInEventBaseThread (.sendResponseHeaders response)

def sendBody (handler : StreamingHTTPHandler) (data : IOBuf) : StreamingHTTPHandler :=
  if data.length = 0 then handler else handler.runInEventBaseThread (.sendBody data)

def sendEOF (handler : StreamingHTTPHandler) : StreamingHTTPHandler :=
  handler.runInEventBaseThread .sendEOF

/-- The calls made once the event base has run its queue in order. -/
def builderCalls (handler : StreamingHTTPHandler) : List BuilderCall :=
  handler.evb.flatMap Task.calls

def emissions (handler : StreamingHTTPHandler) : List Emission :=
  (handler.builderCalls.foldl ResponseBuilder.call .empty).emitted

/-- Whatever the builder, this is what it sends. -/
theorem emissions_documented {β : Type} {library : BuilderLibrary β} (hLibrary : library.Documented)
    (handler : StreamingHTTPHandler) :
    library.emitted (handler.builderCalls.foldl library.call library.create) = handler.emissions :=
  BuilderLibrary.emitted_calls hLibrary handler.builderCalls

end StreamingHTTPHandler

end Nozomi
