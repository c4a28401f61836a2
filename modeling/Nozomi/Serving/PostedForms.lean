import Nozomi.Forms.Accessors
import Nozomi.Serving.Answers

/-! Forms that are posted to the server. A body arrives in pieces that are cut anywhere,
between the steps of other requests, and the form is read back from it all the same. -/
namespace Nozomi

open Text Execution PostParser

theorem IOBuf.bytes_foldl_prependChain (data : List IOBuf) (body : IOBuf) :
    (data.foldl IOBuf.prependChain body).bytes = body.bytes ++ data.flatMap IOBuf.bytes := by
  induction data generalizing body with
  | nil => simp
  | cons piece data ih => rw [List.foldl_cons, ih, IOBuf.bytes_prependChain, List.flatMap_cons, List.append_assoc]

namespace Exchange

variable {τ σ ε : Type} {streaming : Streaming τ σ ε} {factory : HTTPHandlerFactory} {s : Exchange σ}
  {events : List (Event τ ε)}

/-- A request with a handler function starts with the message that was received. -/
theorem receive_handled {message : HTTPMessage} {extra : τ} {program : HTTPHandler.Program}
    {handler : HTTPHandler} (h : receive streaming factory message extra = .ok (.handled program handler)) :
    handler = HTTPHandler.create.onRequest message := by
  obtain ⟨made, _, hMade⟩ := (Throws.bind_eq_ok_iff _ _ _).mp h
  cases made with
  | none => cases hMade
  | some made =>
      cases made with
      | httpHandler requestTimeout function => exact (handled.inj (Except.ok.inj hMade)).2.symm
      | streamingHandler object args =>
          obtain ⟨_, _, hState⟩ := map_streamed_eq_ok hMade
          cases hState

/-- A request with a handler has had it from the beginning, and has taken the steps of
this handler since. -/
theorem run_of_handled {message : HTTPMessage} {extra : τ} {first : Exchange σ}
    {program : HTTPHandler.Program} {handler : HTTPHandler}
    (hMade : receive streaming factory message extra = .ok first)
    (run : Run (succeeds (step streaming factory)) (fun _ _ => True) first events (.handled program handler)) :
    ∃ own, events = own.map .handle ∧ Run (HTTPHandler.step program) (fun _ _ => True)
      (HTTPHandler.create.onRequest message) own handler := by
  cases first with
  | handled made begun =>
      obtain ⟨own, last, hEvents, hLast, hRun⟩ := handled_run run
      obtain ⟨rfl, rfl⟩ := handled.inj hLast
      exact ⟨own, hEvents, receive_handled hMade ▸ hRun⟩
  | idle => exact absurd rfl (receive_ne_idle hMade)
  | streamed state =>
      obtain ⟨_, _, _, hLast, _⟩ := streamed_run run
      cases hLast
  | refused =>
      cases run with
      | cons _ hFirst => cases step_cases (succeeds_eq_some.mp hFirst)

end Exchange

namespace Service

variable {ι τ σ ε : Type} [DecidableEq ι] {streaming : Streaming τ σ ε} {factory : HTTPHandlerFactory}
  {events : List (ι × Exchange.Event τ ε)} {final : Service ι σ}

/-- A request that has a handler has gone through a run of it, from its message on. -/
theorem run_of_handler {i : ι} {message : HTTPMessage} {extra : τ} {program : HTTPHandler.Program}
    {handler : HTTPHandler} (run : Serves streaming factory events final)
    (hReceived : (i, .receive message extra) ∈ events) (hFinal : final.each i = .handled program handler) :
    ∃ own, eventsOf i events = .receive message extra :: own.map .handle ∧
      Run (HTTPHandler.step program) (fun _ _ => True) (HTTPHandler.create.onRequest message) own handler := by
  obtain ⟨all, hRun, hEvents⟩ := run.component i
  rw [hFinal] at hRun hEvents
  have hAll : eventsOf i events = all := by
    rcases hEvents with hAll | ⟨last, thrown, _, hThrown⟩
    · exact hAll
    · cases Exchange.fails_cases hThrown
  have hMem : .receive message extra ∈ all := hAll ▸ (mem_eventsOf i _ events).mpr hReceived
  obtain ⟨rest, first, rfl, hMade, hRest⟩ := Exchange.received_run hMem hRun
  obtain ⟨own, rfl, hOwn⟩ := Exchange.run_of_handled hMade hRest
  exact ⟨own, hAll, hOwn⟩

/-- The bytes of a body, in the order in which they have arrived. -/
def postedBytes (i : ι) (events : List (ι × Exchange.Event τ ε)) : Bytes :=
  ((eventsOf i events).filterMap Exchange.Event.body).flatMap IOBuf.bytes

/-- A form of less than 2 GiB that a client posts under the content type of forms, in
whatever pieces, and whatever the other requests do in between, is given back by the
request that the handler is called with. -/
theorem posted_form_is_read {uri : UriLibrary} (hUri : uri.Documented)
    (run : Serves streaming factory events final) {i : ι} {message : HTTPMessage} {extra : τ}
    (hReceived : (i, .receive message extra) ∈ events)
    (hType : getSingleOrEmpty message.headers .contentType = ascii "application/x-www-form-urlencoded")
    {pairs : List (Bytes × Bytes)} (hForm : EncodesForm pairs (postedBytes i events))
    (hSize : (postedBytes i events).length < 2 ^ 31) {program : HTTPHandler.Program}
    {handler : HTTPHandler} (hFinal : final.each i = .handled program handler) {request : HTTPRequest}
    (hRequest : handler.request = some request) :
    ∃ parser, create uri request = .ok parser ∧ ∀ key, Tells parser pairs key := by
  obtain ⟨own, hEvents, hRun⟩ := run_of_handler run hReceived hFinal
  have hBytes : request.body.bytes = postedBytes i events := by
    rw [HTTPHandler.run_request hRun hRequest, HTTPHandler.run_body hRun,
      IOBuf.bytes_foldl_prependChain, postedBytes, hEvents, Exchange.Event.bodies_handled]
    rfl
  have hPosted : Posted request := by
    rw [HTTPHandler.run_request hRun hRequest]
    exact hType
  rw [← hBytes] at hForm hSize
  rw [← fieldsOf_encodesForm hUri hPosted hForm]
  exact create_fieldsOf hUri hSize

/-- A form cut in the middle of an escape, with another request in between. -/
def postedInPieces : List (Bool × Exchange.Event Unit Empty) :=
  [(true, .receive ⟨some .get, ascii "/", [(.contentType, ascii "application/x-www-form-urlencoded")]⟩ ()),
    (true, .handle (.onBody ⟨ascii "a=%3", []⟩)), (false, .receive ⟨some .get, ascii "/", []⟩ ()),
    (false, .handle (.onBody ⟨ascii "b=2", []⟩)), (true, .handle (.onBody ⟨[], [ascii "1"]⟩)),
    (true, .handle .onEOM)]

/-- An escape that is cut between two pieces, with an empty piece in between. -/
theorem posted_form_is_read_example :
    ∃ parser, create uriDecoder ⟨⟨some .get, ascii "/",
        [(.contentType, ascii "application/x-www-form-urlencoded")]⟩,
        ⟨[], [ascii "a=%3", [], ascii "1"]⟩⟩ = .ok parser ∧
      ∀ key, Tells parser [(ascii "a", ascii "1")] key := by
  have hRun : ∃ final, Serves noStreaming ⟨1000, .create (fun _ => none) [echo]⟩ postedInPieces final ∧
      ∃ program handler, final.each true = .handled program handler ∧ handler.request =
        some ⟨⟨some .get, ascii "/", [(.contentType, ascii "application/x-www-form-urlencoded")]⟩,
          ⟨[], [ascii "a=%3", [], ascii "1"]⟩⟩ :=
    ⟨_, Run.of_execute rfl, _, _, rfl, rfl⟩
  obtain ⟨final, hServes, program, handler, hFinal, hRequest⟩ := hRun
  have hPair : EncodesPair (ascii "a", ascii "1") (ascii "a=%31") :=
    ⟨_, _, .cons (.itself 0x61 (by decide) (by decide) (by decide) (by decide)) .nil,
      .cons (.escape 0x33 0x31 3 1 rfl rfl) .nil, rfl⟩
  exact posted_form_is_read uriDecoder_documented hServes (List.mem_cons_self ..) rfl (.last 0 hPair)
    (by decide) hFinal hRequest

end Service

end Nozomi
