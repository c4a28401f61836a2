import Nozomi.Execution.Run
import Nozomi.Handling.FileStreaming
import Nozomi.Handling.StreamingDelivery

/-! The file handler on two threads. The task on the I/O executor reads the file
and queues what is to be sent, and the event base runs its queue in order. The
transport asks for the deletion of the handler, which is queued like any task. -/
namespace Nozomi

open Text Filesystem Execution

/-- Where the task on the I/O executor is. -/
inductive IOTask where
  | scheduled
  | opened (fin : Option InputStream)
  | reading (call : Nat) (fin : InputStream)
  | filled (call : Nat) (fin : InputStream) (buf : Buffer)
  | ending
  | finished

def IOTask.isFinished : IOTask → Bool
  | .finished => true
  | _ => false

/-- What the event base has to run: a closure of a send function, or the deletion. -/
inductive Queued where
  | send (task : Task)
  | deletion
  deriving DecidableEq

/-- A handler object whose `onEOM` has scheduled its I/O task. -/
structure FileTransfer where
  io : IOTask
  sentHeaders : Bool
  evb : List Queued
  responseBuilder : ResponseBuilder
  alive : Bool

namespace FileTransfer

inductive Event where
  | openFile
  | sendResponseHeaders
  | read
  | sendBody
  | sendEOF
  | runTask (task : Task)
  | runDeletion
  | onError
  | requestComplete
  deriving DecidableEq

def start : FileTransfer := ⟨.scheduled, false, [], .empty, true⟩

/-- Call a send function of the base class: what it queues goes to the end of
the queue. -/
def call (transfer : FileTransfer) (send : StreamingHTTPHandler → StreamingHTTPHandler) :
    FileTransfer :=
  let base := send ⟨transfer.sentHeaders, []⟩
  { transfer with
    sentHeaders := base.sentHeaders
    evb := transfer.evb ++ base.evb.map .send }

/-- `runInEventBaseThread([this]() { delete this; })` -/
def queueDeletion (transfer : FileTransfer) : FileTransfer :=
  { transfer with evb := transfer.evb ++ [.deletion] }

/-- The steps of both threads; `none` where the event cannot take place. Neither
the I/O task nor a queued closure looks at whether the object is alive, and the
transport calls nothing but a live object. -/
def step (fs : FileSystem) (handler : StreamingFileHandler)
    (allocator : Allocator handler.readBufferSize) (transfer : FileTransfer) :
    Event → Option FileTransfer
  | .openFile =>
      match transfer.io with
      | .scheduled => some { transfer with io := .opened (fs.ifstream handler.path) }
      | _ => none
  | .sendResponseHeaders =>
      match transfer.io with
      | .opened none =>
          some { transfer.call (·.sendResponseHeaders (HTTPResponse.ofStatus 404)) with io := .ending }
      | .opened (some fin) =>
          some { transfer.call (·.sendResponseHeaders (HTTPResponse.ofStatus 200)) with
            io := .reading 0 fin }
      | _ => none
  | .read =>
      match transfer.io with
      | .reading call fin =>
          if fin.eof then none
          else
            let (buf, fin) := StreamingFileHandler.readChunk allocator call fin
            some { transfer with io := .filled call fin buf }
      | _ => none
  | .sendBody =>
      match transfer.io with
      | .filled call fin buf =>
          some { transfer.call (·.sendBody (IOBuf.copyBuffer buf.data)) with
            io := .reading (call + 1) fin }
      | _ => none
  | .sendEOF =>
      match transfer.io with
      | .ending => some { transfer.call (·.sendEOF) with io := .finished }
      | .reading _ fin =>
          if fin.eof then some { transfer.call (·.sendEOF) with io := .finished } else none
      | _ => none
  | .runTask task =>
      match transfer.evb with
      | .send queued :: rest =>
          if queued = task then
            some { transfer with
              evb := rest
              responseBuilder := task.calls.foldl ResponseBuilder.call transfer.responseBuilder }
          else none
      | _ => none
  | .runDeletion =>
      match transfer.evb with
      | .deletion :: rest => some { transfer with evb := rest, alive := false }
      | _ => none
  | .onError => if transfer.alive then some transfer.queueDeletion else none
  | .requestComplete =>
      if transfer.alive ∧ .eom ∈ transfer.responseBuilder.emitted then some transfer.queueDeletion
      else none

/-- The steps that use a member of the handler. -/
def Event.usesHandler : Event → Bool
  | .openFile | .sendResponseHeaders | .read | .sendBody | .sendEOF | .runTask _ => true
  | _ => false

def Event.deletes : Event → Bool
  | .runDeletion => true
  | _ => false

/-- An error of the transport is received only when the I/O task is done. -/
def Careful (transfer : FileTransfer) (event : Event) : Prop :=
  event = .onError → transfer.io.isFinished = true

instance (transfer : FileTransfer) (event : Event) : Decidable (Careful transfer event) :=
  inferInstanceAs (Decidable (event = .onError → transfer.io.isFinished = true))

/-- What a step does, and the place of its thread where it does this. -/
inductive Turn (fs : FileSystem) (handler : StreamingFileHandler)
    (allocator : Allocator handler.readBufferSize) (s : FileTransfer) : Event → FileTransfer → Prop where
  | openFile (hTask : s.io = .scheduled) :
      Turn fs handler allocator s .openFile { s with io := .opened (fs.ifstream handler.path) }
  | notFound (hTask : s.io = .opened none) :
      Turn fs handler allocator s .sendResponseHeaders
        { s.call (·.sendResponseHeaders (HTTPResponse.ofStatus 404)) with io := .ending }
  | found {fin : InputStream} (hTask : s.io = .opened (some fin)) :
      Turn fs handler allocator s .sendResponseHeaders
        { s.call (·.sendResponseHeaders (HTTPResponse.ofStatus 200)) with io := .reading 0 fin }
  | read {call : Nat} {fin : InputStream} (hTask : s.io = .reading call fin) (hEof : fin.eof = false) :
      Turn fs handler allocator s .read
        { s with
          io := .filled call (StreamingFileHandler.readChunk allocator call fin).2
            (StreamingFileHandler.readChunk allocator call fin).1 }
  | sendBody {call : Nat} {fin : InputStream} {buf : Buffer} (hTask : s.io = .filled call fin buf) :
      Turn fs handler allocator s .sendBody
        { s.call (·.sendBody (IOBuf.copyBuffer buf.data)) with io := .reading (call + 1) fin }
  | sendEOF (hTask : s.io = .ending) :
      Turn fs handler allocator s .sendEOF { s.call (·.sendEOF) with io := .finished }
  | leaveLoop {call : Nat} {fin : InputStream} (hTask : s.io = .reading call fin) (hEof : fin.eof = true) :
      Turn fs handler allocator s .sendEOF { s.call (·.sendEOF) with io := .finished }
  | runTask {task : Task} {rest : List Queued} (hQueue : s.evb = .send task :: rest) :
      Turn fs handler allocator s (.runTask task)
        { s with
          evb := rest
          responseBuilder := task.calls.foldl ResponseBuilder.call s.responseBuilder }
  | runDeletion {rest : List Queued} (hQueue : s.evb = .deletion :: rest) :
      Turn fs handler allocator s .runDeletion { s with evb := rest, alive := false }
  | onError (hAlive : s.alive = true) : Turn fs handler allocator s .onError s.queueDeletion
  | requestComplete (hAlive : s.alive = true) (hEOM : .eom ∈ s.responseBuilder.emitted) :
      Turn fs handler allocator s .requestComplete s.queueDeletion

/-- What one step can do, seen from the queue: the I/O task queues a closure as
long as it is not finished, the event base takes the first entry off, and the
transport puts a deletion at the end. -/
inductive Step (s : FileTransfer) : Event → FileTransfer → Prop where
  | works (event : Event) (io : IOTask) (hOpen : s.io.isFinished = false)
      (hTask : io.isFinished = false) (hUses : event.usesHandler = true) :
      Step s event { s with io := io }
  | sends (event : Event) (io : IOTask) (send : StreamingHTTPHandler → StreamingHTTPHandler)
      (hOpen : s.io.isFinished = false) (hUses : event.usesHandler = true)
      (hEnds : .sendEOF ∈ (send ⟨s.sentHeaders, []⟩).evb → io.isFinished = true) :
      Step s event { s.call send with io := io }
  | runTask (task : Task) (rest : List Queued) (hQueue : s.evb = .send task :: rest) :
      Step s (.runTask task)
        { s with
          evb := rest
          responseBuilder := task.calls.foldl ResponseBuilder.call s.responseBuilder }
  | runDeletion (rest : List Queued) (hQueue : s.evb = .deletion :: rest) :
      Step s .runDeletion { s with evb := rest, alive := false }
  | onError (hAlive : s.alive = true) : Step s .onError s.queueDeletion
  | requestComplete (hAlive : s.alive = true) (hEOM : .eom ∈ s.responseBuilder.emitted) :
      Step s .requestComplete s.queueDeletion

variable {fs : FileSystem} {handler : StreamingFileHandler}
  {allocator : Allocator handler.readBufferSize} {s t : FileTransfer} {event : Event}

/-- The headers alone do not end the message, and neither does a piece of the body. -/
theorem sendResponseHeaders_evb (base : StreamingHTTPHandler) (statusCode : Int16) (hEvb : base.evb = []) :
    .sendEOF ∉ (base.sendResponseHeaders (HTTPResponse.ofStatus statusCode)).evb := by
  simp [StreamingHTTPHandler.sendResponseHeaders, StreamingHTTPHandler.runInEventBaseThread, hEvb]

theorem sendBody_evb (base : StreamingHTTPHandler) (data : IOBuf) (hEvb : base.evb = []) :
    Task.sendEOF ∉ (base.sendBody data).evb := by
  unfold StreamingHTTPHandler.sendBody
  split <;> simp [hEvb, StreamingHTTPHandler.runInEventBaseThread]

/-- What a step does is one of the ways that `Turn` lists, with the place of its thread. All
that is said about a step rests on this. -/
theorem step_turn (h : step fs handler allocator s event = some t) : Turn fs handler allocator s event t := by
  cases event with
  | openFile =>
      simp only [step] at h
      split at h
      · obtain rfl := Option.some.inj h
        exact .openFile ‹_›
      · cases h
  | sendResponseHeaders =>
      simp only [step] at h
      split at h
      · obtain rfl := Option.some.inj h
        exact .notFound ‹_›
      · obtain rfl := Option.some.inj h
        exact .found ‹_›
      · cases h
  | read =>
      simp only [step] at h
      split at h
      · rename_i hTask
        split at h
        · cases h
        · rename_i hEof
          obtain rfl := Option.some.inj h
          exact .read hTask (eq_false_of_ne_true hEof)
      · cases h
  | sendBody =>
      simp only [step] at h
      split at h
      · obtain rfl := Option.some.inj h
        exact .sendBody ‹_›
      · cases h
  | sendEOF =>
      simp only [step] at h
      split at h
      · obtain rfl := Option.some.inj h
        exact .sendEOF ‹_›
      · rename_i hTask
        split at h
        · obtain rfl := Option.some.inj h
          exact .leaveLoop hTask ‹_›
        · cases h
      · cases h
  | runTask task =>
      simp only [step] at h
      split at h
      · rename_i queued rest hQueue
        split at h
        · rename_i hTask
          obtain rfl := Option.some.inj h
          exact .runTask (hTask ▸ hQueue)
        · cases h
      · cases h
  | runDeletion =>
      simp only [step] at h
      split at h
      · obtain rfl := Option.some.inj h
        exact .runDeletion ‹_›
      · cases h
  | onError =>
      simp only [step, Option.ite_none_right_eq_some, Option.some.injEq] at h
      obtain ⟨hAlive, rfl⟩ := h
      exact .onError hAlive
  | requestComplete =>
      simp only [step, Option.ite_none_right_eq_some, Option.some.injEq] at h
      obtain ⟨⟨hAlive, hEOM⟩, rfl⟩ := h
      exact .requestComplete hAlive hEOM

/-- Seen from the queue, what a step does is one of the ways that `Step` lists. -/
theorem step_cases (h : step fs handler allocator s event = some t) : Step s event t := by
  cases step_turn h with
  | openFile hTask | read hTask => exact .works _ _ (by rw [hTask]; rfl) rfl rfl
  | notFound hTask | found hTask =>
      exact .sends _ _ _ (by rw [hTask]; rfl) rfl fun hMem => absurd hMem (sendResponseHeaders_evb _ _ rfl)
  | sendBody hTask =>
      exact .sends _ _ _ (by rw [hTask]; rfl) rfl fun hMem => absurd hMem (sendBody_evb _ _ rfl)
  | sendEOF hTask | leaveLoop hTask => exact .sends _ _ _ (by rw [hTask]; rfl) rfl fun _ => rfl
  | runTask hQueue => exact .runTask _ _ hQueue
  | runDeletion hQueue => exact .runDeletion _ hQueue
  | onError hAlive => exact .onError hAlive
  | requestComplete hAlive hEOM => exact .requestComplete hAlive hEOM

/-- In the queue every closure stands before every deletion. A deletion is only
there, or has run, once the I/O task is finished, and the end of message is only
there, or was sent, after that too. -/
structure Orderly (s : FileTransfer) : Prop where
  builder : ∃ emitted, s.responseBuilder = ⟨none, none, emitted⟩
  ended : .eom ∈ s.responseBuilder.emitted ∨ .send .sendEOF ∈ s.evb → s.io.isFinished = true
  queue : ∃ (tasks : List Task) (count : Nat), s.evb = tasks.map .send ++ List.replicate count .deletion ∧
    (s.alive = false → tasks = []) ∧ (s.alive = false ∨ 0 < count → s.io.isFinished = true)

/-- In the beginning the queue is empty, and the I/O task is not finished. -/
theorem orderly_start : Orderly start where
  builder := ⟨[], rfl⟩
  ended := by simp [start, ResponseBuilder.empty]
  queue := ⟨[], 0, rfl, fun _ => rfl, by simp [start]⟩

/-- While the I/O task is not finished, there is no deletion. -/
theorem Orderly.open_queue (h : Orderly s) (hOpen : s.io.isFinished = false) :
    s.alive = true ∧ ∃ tasks : List Task, s.evb = tasks.map .send := by
  obtain ⟨tasks, count, hQueue, _, hFinished⟩ := h.queue
  have hNone : ¬(s.alive = false ∨ 0 < count) := by
    intro hSome
    rw [hFinished hSome] at hOpen
    cases hOpen
  obtain ⟨hAlive, hCount⟩ := not_or.mp hNone
  refine ⟨by simpa using hAlive, tasks, ?_⟩
  rw [hQueue, Nat.eq_zero_of_not_pos hCount, List.replicate_zero, List.append_nil]

/-- Only the end of the message emits one. -/
theorem eom_mem_emissions (task : Task) : .eom ∈ task.emissions → task = .sendEOF := by
  cases task <;> simp [Task.emissions]

theorem Orderly.works (h : Orderly s) {io : IOTask} (hOpen : s.io.isFinished = false) :
    Orderly { s with io := io } := by
  obtain ⟨hAlive, tasks, hQueue⟩ := h.open_queue hOpen
  refine ⟨h.builder, ?_, tasks, 0, by rw [hQueue]; simp, by simp [hAlive], by simp [hAlive]⟩
  intro hEnded
  have hFinished := h.ended hEnded
  rw [hOpen] at hFinished
  cases hFinished

/-- A step of the I/O task that queues closures keeps the order, if the task is
finished once the end of the message is queued. -/
theorem Orderly.sends (h : Orderly s) {io : IOTask}
    {send : StreamingHTTPHandler → StreamingHTTPHandler} (hOpen : s.io.isFinished = false)
    (hEnds : .sendEOF ∈ (send ⟨s.sentHeaders, []⟩).evb → io.isFinished = true) :
    Orderly { s.call send with io := io } := by
  obtain ⟨hAlive, tasks, hQueue⟩ := h.open_queue hOpen
  refine ⟨h.builder, ?_, tasks ++ (send ⟨s.sentHeaders, []⟩).evb, 0, ?_, ?_, ?_⟩
  · intro hEnded
    have hNew : Task.sendEOF ∈ (send ⟨s.sentHeaders, []⟩).evb := by
      by_contra hOther
      have hBefore : .eom ∈ s.responseBuilder.emitted ∨ .send .sendEOF ∈ s.evb := by
        simpa [call, hOther] using hEnded
      have hFinished := h.ended hBefore
      rw [hOpen] at hFinished
      cases hFinished
    exact hEnds hNew
  · simp [call, hQueue]
  · simp [call, hAlive]
  · simp [call, hAlive]

/-- A closure at the head of the queue stands before all deletions, so the object
is alive. -/
theorem Orderly.head_send (h : Orderly s) {task : Task} {rest : List Queued}
    (hQueue : s.evb = .send task :: rest) : s.alive = true ∧ ∃ (tasks : List Task) (count : Nat),
      rest = tasks.map .send ++ List.replicate count .deletion ∧
        (0 < count → s.io.isFinished = true) := by
  obtain ⟨tasks, count, hSplit, hDead, hFinished⟩ := h.queue
  rw [hQueue] at hSplit
  cases tasks with
  | nil =>
      cases count with
      | zero => cases hSplit
      | succ count =>
          rw [List.map_nil, List.nil_append, List.replicate_succ] at hSplit
          cases hSplit
  | cons first tasks =>
      obtain ⟨_, hRest⟩ := List.cons.inj hSplit
      refine ⟨?_, tasks, count, hRest, fun hCount => hFinished (Or.inr hCount)⟩
      cases hAlive : s.alive with
      | true => rfl
      | false => cases hDead hAlive

/-- A closure that runs emits its calls, and was queued before every deletion. -/
theorem Orderly.runTask (h : Orderly s) {task : Task} {rest : List Queued}
    (hQueue : s.evb = .send task :: rest) :
    Orderly { s with
      evb := rest
      responseBuilder := task.calls.foldl ResponseBuilder.call s.responseBuilder } := by
  obtain ⟨emitted, hBuilder⟩ := h.builder
  obtain ⟨hAlive, tasks, count, hRest, hFinished⟩ := h.head_send hQueue
  have hRun : task.calls.foldl ResponseBuilder.call s.responseBuilder =
      ⟨none, none, emitted ++ task.emissions⟩ := by rw [hBuilder, Task.foldl_calls]
  refine ⟨⟨_, hRun⟩, ?_, tasks, count, hRest, by simp [hAlive], by simpa [hAlive] using hFinished⟩
  intro hEnded
  apply h.ended
  rw [hBuilder, hQueue]
  simp only [hRun, List.mem_append] at hEnded
  rcases hEnded with (hBefore | hHere) | hLater
  · exact Or.inl hBefore
  · rw [eom_mem_emissions task hHere]
    exact Or.inr (List.mem_cons_self ..)
  · exact Or.inr (List.mem_cons_of_mem _ hLater)

/-- A deletion that runs is behind all closures, so that none of them is left. -/
theorem Orderly.runDeletion (h : Orderly s) {rest : List Queued}
    (hQueue : s.evb = .deletion :: rest) : Orderly { s with evb := rest, alive := false } := by
  obtain ⟨tasks, count, hSplit, _, hFinished⟩ := h.queue
  rw [hQueue] at hSplit
  cases tasks with
  | cons first tasks => cases hSplit
  | nil =>
      cases count with
      | zero => cases hSplit
      | succ count =>
          rw [List.map_nil, List.nil_append, List.replicate_succ] at hSplit
          obtain ⟨_, hRest⟩ := List.cons.inj hSplit
          have hDone := hFinished (Or.inr (Nat.succ_pos count))
          exact ⟨h.builder, fun _ => hDone, [], count, hRest, fun _ => rfl, fun _ => hDone⟩

/-- A deletion may be queued once the I/O task is finished, as no closure will be
queued after it. -/
theorem Orderly.queueDeletion (h : Orderly s) (hDone : s.io.isFinished = true) :
    Orderly s.queueDeletion := by
  obtain ⟨tasks, count, hQueue, hDead, _⟩ := h.queue
  refine ⟨h.builder, fun _ => hDone, tasks, count + 1, ?_, hDead, fun _ => hDone⟩
  rw [FileTransfer.queueDeletion, hQueue, List.replicate_succ', List.append_assoc]

/-- Every careful step keeps the queue in order. -/
theorem orderly_step (h : Orderly s) (hCareful : Careful s event)
    (hStep : step fs handler allocator s event = some t) : Orderly t := by
  cases step_cases hStep with
  | works _ io hOpen => exact h.works hOpen
  | sends _ io send hOpen hUses hEnds => exact h.sends hOpen hEnds
  | runTask task rest hQueue => exact h.runTask hQueue
  | runDeletion rest hQueue => exact h.runDeletion hQueue
  | onError hAlive => exact h.queueDeletion (hCareful rfl)
  | requestComplete hAlive hEOM => exact h.queueDeletion (h.ended (Or.inl hEOM))

/-- In an orderly state, only a live object is used. -/
theorem Orderly.uses_alive (h : Orderly s) (hStep : step fs handler allocator s event = some t)
    (hUses : event.usesHandler = true) : s.alive = true := by
  cases step_cases hStep with
  | works _ io hOpen => exact (h.open_queue hOpen).1
  | sends _ io send hOpen => exact (h.open_queue hOpen).1
  | runTask task rest hQueue => exact (h.head_send hQueue).1
  | runDeletion rest hQueue => cases hUses
  | onError hAlive => exact hAlive
  | requestComplete hAlive hEOM => exact hAlive

/-- Running the deletion is the only way to lose the object. -/
theorem step_alive (h : step fs handler allocator s event = some t) :
    (!t.alive) = (!s.alive || event.deletes) := by
  cases step_cases h with
  | runDeletion rest hQueue => simp [Event.deletes]
  | works _ io hOpen hTask hUses | sends _ io send hOpen hUses hEnds =>
      have hKeeps : event.deletes = false := by
        cases event <;> first | rfl | cases hUses
      simp [hKeeps, call]
  | _ => simp [Event.deletes, queueDeletion]

/-- In a careful run, no step of the read loop and no queued closure uses the
handler after its deletion was run. -/
theorem careful_run_uses_live_handler {events before after : List Event} {final : FileTransfer}
    (run : Run (step fs handler allocator) Careful start events final)
    (hEvents : events = before ++ event :: after) (hUses : event.usesHandler = true) :
    ∀ earlier ∈ before, earlier.deletes = false := by
  subst hEvents
  obtain ⟨middle, hBefore, hAfter⟩ := run.split
  have hOrderly : Orderly middle :=
    hBefore.invariant Orderly orderly_start fun _ _ _ h hCareful hStep => orderly_step h hCareful hStep
  have hDeleted : (!middle.alive) = (!start.alive || before.any Event.deletes) :=
    hBefore.flag_iff (fun s => !s.alive) Event.deletes fun _ _ _ => step_alive
  cases hAfter with
  | cons hCareful first rest =>
      have hLive := hOrderly.uses_alive first hUses
      simpa [hLive, start] using hDeleted

/-- The file "hi" behind a handler that reads four bytes at a time. -/
def transferStep : FileTransfer → Event → Option FileTransfer :=
  step (StreamingFileHandler.oneFile (ascii "hi")) (.create (ascii "www/hi") 4)
    (StreamingFileHandler.constantAllocator (ascii "full") (by decide))

theorem careful_run_uses_live_handler_example :
    [Event.openFile, .sendResponseHeaders, .read, .sendBody, .sendEOF,
      .runTask (.sendResponseHeaders (HTTPResponse.ofStatus 200)),
      .runTask (.sendBody (IOBuf.copyBuffer (ascii "hi")))].any Event.deletes = false := by
  have hRun : Run transferStep Careful start
      ([.openFile, .sendResponseHeaders, .read, .sendBody, .sendEOF,
        .runTask (.sendResponseHeaders (HTTPResponse.ofStatus 200)),
        .runTask (.sendBody (IOBuf.copyBuffer (ascii "hi")))] ++
        [.runTask .sendEOF, .requestComplete, .runDeletion])
      ⟨.finished, true, [],
        ⟨none, none, [.headers 200 [], .body (IOBuf.copyBuffer (ascii "hi")), .eom]⟩, false⟩ :=
    Run.of_execute rfl
  have hLive := careful_run_uses_live_handler hRun rfl rfl
  exact List.any_eq_false.mpr fun earlier hMem => by simp [hLive earlier hMem]

/-- An error of the transport in the middle of the read loop: the next read, or
the next closure, uses a deleted handler. -/
theorem deleted_handler_is_used :
    (∃ final, Run transferStep (fun _ _ => True) start
        ([.openFile, .sendResponseHeaders, .onError,
          .runTask (.sendResponseHeaders (HTTPResponse.ofStatus 200)), .runDeletion] ++
            .read :: []) final) ∧
      (∃ final, Run transferStep (fun _ _ => True) start
        ([.openFile, .sendResponseHeaders, .read, .onError, .sendBody, .sendEOF,
          .runTask (.sendResponseHeaders (HTTPResponse.ofStatus 200)), .runDeletion] ++
            .runTask (.sendBody (IOBuf.copyBuffer (ascii "hi"))) :: []) final) ∧
      Event.read.usesHandler = true ∧
      (Event.runTask (.sendBody (IOBuf.copyBuffer (ascii "hi")))).usesHandler = true ∧
      Event.runDeletion.deletes = true :=
  ⟨⟨_, Run.of_execute rfl⟩, ⟨_, Run.of_execute rfl⟩, rfl, rfl, rfl⟩

end FileTransfer

end Nozomi
