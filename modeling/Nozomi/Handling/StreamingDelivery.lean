import Nozomi.Handling.StreamingHTTPHandler

/-! What reaches the transport once the event base has run its queue. The
builder is empty between tasks, so each task has emissions of its own. -/
namespace Nozomi

open Text

def BuilderCall.passedBody : BuilderCall → Option IOBuf
  | .body data => some data
  | .status _ | .header _ _ | .send | .sendWithEOM => none

/-- The bodies that a task passes to the response builder. -/
def Task.passedBodies (task : Task) : List IOBuf := task.calls.filterMap BuilderCall.passedBody

/-- What a task emits when the builder is empty. -/
def Task.emissions : Task → List Emission
  | .sendResponseHeaders response =>
      .headers response.statusCode response.headers ::
        (Task.sendResponseHeaders response).passedBodies.map .body
  | .sendBody data => [.body data]
  | .sendEOF => [.eom]

/-- Every body passed to the response builder, in order. -/
def StreamingHTTPHandler.passedBodies (handler : StreamingHTTPHandler) : List IOBuf :=
  handler.builderCalls.filterMap BuilderCall.passedBody

namespace ResponseBuilder

/-- A header call extends the open block. -/
theorem foldl_header (headers block : HTTPHeaders) (code : Int16) (body : Option IOBuf)
    (emitted : List Emission) :
    (headers.map fun header => BuilderCall.header header.1 header.2).foldl call
        ⟨some (code, block), body, emitted⟩ =
      ⟨some (code, block ++ headers), body, emitted⟩ := by
  induction headers generalizing block with
  | nil => simp
  | cons header headers ih => simp [call, ih]

end ResponseBuilder

namespace Task

theorem passedBodies_sendResponseHeaders (response : HTTPResponse) :
    (sendResponseHeaders response).passedBodies =
      if response.getBody.length ≠ 0 then [response.getBody] else [] := by
  have hHeaders : (response.headers.map fun header => BuilderCall.header header.1 header.2).filterMap
      BuilderCall.passedBody = [] := by
    simp [List.filterMap_eq_nil_iff, BuilderCall.passedBody]
  simp only [passedBodies, calls, List.cons_append, List.filterMap_cons, List.filterMap_append,
    hHeaders, BuilderCall.passedBody]
  split <;> simp [BuilderCall.passedBody]

@[simp] theorem passedBodies_sendBody (data : IOBuf) : (sendBody data).passedBodies = [data] := rfl

@[simp] theorem passedBodies_sendEOF : sendEOF.passedBodies = [] := rfl

/-- A task leaves an empty builder empty and emits what is its own. -/
theorem foldl_calls (task : Task) (emitted : List Emission) :
    task.calls.foldl ResponseBuilder.call ⟨none, none, emitted⟩ =
      ⟨none, none, emitted ++ task.emissions⟩ := by
  cases task with
  | sendResponseHeaders response =>
      simp only [emissions, passedBodies_sendResponseHeaders, calls, List.cons_append,
        List.foldl_cons, List.foldl_append, ResponseBuilder.call, ResponseBuilder.foldl_header]
      split <;> simp [ResponseBuilder.call, ResponseBuilder.flush]
  | sendBody data => simp [calls, emissions, ResponseBuilder.call, ResponseBuilder.flush]
  | sendEOF => simp [calls, emissions, ResponseBuilder.call, ResponseBuilder.flush]

/-- Tasks run one after another emit one after another. -/
theorem foldl_tasks (tasks : List Task) (emitted : List Emission) :
    (tasks.flatMap calls).foldl ResponseBuilder.call ⟨none, none, emitted⟩ =
      ⟨none, none, emitted ++ tasks.flatMap emissions⟩ := by
  induction tasks generalizing emitted with
  | nil => simp
  | cons task tasks ih =>
      rw [List.flatMap_cons, List.foldl_append, foldl_calls, ih, List.flatMap_cons, List.append_assoc]

end Task

namespace StreamingHTTPHandler

/-- The queue emits task by task. -/
theorem emissions_eq (handler : StreamingHTTPHandler) :
    handler.emissions = handler.evb.flatMap Task.emissions := by
  rw [emissions, builderCalls, ResponseBuilder.empty, Task.foldl_tasks, List.nil_append]

/-- What is passed on is passed on by the closures, in the order of the queue. -/
theorem passedBodies_eq (handler : StreamingHTTPHandler) :
    handler.passedBodies = handler.evb.flatMap Task.passedBodies := by
  rw [passedBodies, builderCalls, List.filterMap_flatMap]
  rfl

/-- A response with further chains of data, sent as one streaming response. -/
def deliver (response : HTTPResponse) (data : List IOBuf) : StreamingHTTPHandler :=
  (data.foldl sendBody (create.sendResponseHeaders response)).sendEOF

/-- One header block first, the bodies that were passed, the end of message
last. The bodies carry all bytes of the chains, and none is empty. -/
structure Delivers (response : HTTPResponse) (data : List IOBuf)
    (handler : StreamingHTTPHandler) : Prop where
  emissions : handler.emissions = .headers response.statusCode response.headers ::
    handler.passedBodies.map .body ++ [.eom]
  bytes : handler.passedBodies.flatMap IOBuf.bytes =
    response.getBody.bytes ++ data.flatMap IOBuf.bytes
  nonempty : ∀ body ∈ handler.passedBodies, body.computeChainDataLength ≠ 0

/-- Of several pieces, those with an empty first segment are not even queued. -/
theorem evb_foldl_sendBody (data : List IOBuf) (handler : StreamingHTTPHandler) :
    (data.foldl sendBody handler).evb =
      handler.evb ++ (data.filter (·.length ≠ 0)).map .sendBody := by
  induction data generalizing handler with
  | nil => simp
  | cons chain data ih =>
      rw [List.foldl_cons, ih, sendBody]
      by_cases hLength : chain.length = 0
      · simp [hLength]
      · simp [hLength, runInEventBaseThread]

theorem evb_deliver (response : HTTPResponse) (data : List IOBuf) :
    (deliver response data).evb = .sendResponseHeaders response ::
      ((data.filter (·.length ≠ 0)).map .sendBody ++ [.sendEOF]) := by
  simp [deliver, sendEOF, runInEventBaseThread, evb_foldl_sendBody, sendResponseHeaders, create]

/-- The builder is passed just the chains whose first segment is not empty. -/
theorem passedBodies_deliver (response : HTTPResponse) (data : List IOBuf) :
    (deliver response data).passedBodies =
      (response.getBody :: data).filter (·.length ≠ 0) := by
  have hData : ∀ chains : List IOBuf, (chains.map Task.sendBody).flatMap Task.passedBodies = chains := by
    intro chains
    induction chains with
    | nil => rfl
    | cons chain chains ih => simpa using ih
  rw [passedBodies_eq, evb_deliver, List.flatMap_cons, List.flatMap_append, hData,
    Task.passedBodies_sendResponseHeaders, List.filter_cons]
  by_cases hLength : response.getBody.length = 0 <;> simp [hLength]

/-- What a delivery emits: its headers, the pieces that are passed on, and the end. -/
theorem emissions_deliver (response : HTTPResponse) (data : List IOBuf) :
    (deliver response data).emissions = .headers response.statusCode response.headers ::
      (deliver response data).passedBodies.map .body ++ [.eom] := by
  have hData : ∀ chains : List IOBuf, (chains.map Task.sendBody).flatMap Task.emissions =
      chains.map .body := by
    intro chains
    induction chains with
    | nil => rfl
    | cons chain chains ih => simpa [Task.emissions] using ih
  rw [emissions_eq, evb_deliver, passedBodies_deliver, List.flatMap_cons, List.flatMap_append, hData,
    Task.emissions, Task.passedBodies_sendResponseHeaders, List.filter_cons]
  by_cases hLength : response.getBody.length = 0 <;> simp [hLength, Task.emissions]

/-- Filtering loses no bytes exactly if the chains left out have none. A chain that is
left out cannot be made up for by others. -/
theorem flatMap_filter_eq_iff (chains : List IOBuf) (keep : IOBuf → Bool) :
    (chains.filter keep).flatMap IOBuf.bytes = chains.flatMap IOBuf.bytes ↔
      ∀ chain ∈ chains, keep chain = false → chain.bytes = [] := by
  have hLength : ∀ chains : List IOBuf, ((chains.filter keep).flatMap IOBuf.bytes).length ≤
      (chains.flatMap IOBuf.bytes).length := by
    intro chains
    induction chains with
    | nil => simp
    | cons chain chains ih =>
        by_cases hKeep : keep chain <;> simp only [hKeep, List.filter_cons, if_true,
          Bool.false_eq_true, if_false, List.flatMap_cons, List.length_append] <;> omega
  induction chains with
  | nil => simp
  | cons chain chains ih =>
      by_cases hKeep : keep chain
      · simp [hKeep, ih]
      · rw [List.filter_cons_of_neg hKeep, List.flatMap_cons]
        constructor
        · intro hSame
          have hTotal := congrArg List.length hSame
          have hRest := hLength chains
          rw [List.length_append] at hTotal
          have hNil : chain.bytes = [] := List.eq_nil_of_length_eq_zero (by omega)
          rw [hNil, List.nil_append] at hSame
          simpa [hNil] using ih.mp hSame
        · intro hEmpty
          rw [hEmpty chain (by simp) (by simpa using hKeep), List.nil_append]
          exact ih.mpr fun other hMem => hEmpty other (by simp [hMem])

/-- A streaming response delivers what it is given exactly if no chain hides
data behind an empty first segment. -/
theorem deliver_delivers_iff (response : HTTPResponse) (data : List IOBuf) :
    Delivers response data (deliver response data) ↔
      ∀ chain ∈ response.getBody :: data, chain.first = [] → chain.bytes = [] := by
  have hBytes : (deliver response data).passedBodies.flatMap IOBuf.bytes =
      response.getBody.bytes ++ data.flatMap IOBuf.bytes ↔
      ∀ chain ∈ response.getBody :: data, chain.first = [] → chain.bytes = [] := by
    rw [passedBodies_deliver, ← List.flatMap_cons, flatMap_filter_eq_iff]
    simp [IOBuf.length]
  rw [← hBytes]
  refine ⟨Delivers.bytes, fun h => ⟨emissions_deliver response data, h, ?_⟩⟩
  intro body hMem
  rw [passedBodies_deliver] at hMem
  have hFirst : body.length ≠ 0 := by simpa using (List.mem_filter.mp hMem).2
  simp only [IOBuf.length, IOBuf.computeChainDataLength, IOBuf.segments, List.map_cons,
    List.sum_cons] at hFirst ⊢
  omega

/-- The chain that a request handler gets starts with the empty buffer it was
created with. Sent back as it is, it is lost. -/
theorem deliver_loses_request_body :
    (IOBuf.create.prependChain (IOBuf.copyBuffer (ascii "hello"))).bytes = ascii "hello" ∧
      ¬Delivers (HTTPResponse.ofStatus 200)
        [IOBuf.create.prependChain (IOBuf.copyBuffer (ascii "hello"))]
        (deliver (HTTPResponse.ofStatus 200)
          [IOBuf.create.prependChain (IOBuf.copyBuffer (ascii "hello"))]) := by
  refine ⟨by decide, fun h => ?_⟩
  have hBytes := h.bytes
  revert hBytes
  decide

end StreamingHTTPHandler

end Nozomi
