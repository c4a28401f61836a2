import Nozomi.Handling.FileResponse
import Nozomi.Handling.StreamingLifecycle

/-! What a file transfer emits. The I/O task and the event base take turns in any
order, but the queue between them keeps the order in which it was filled, so the
transport gets what `onEOM` would have sent on one thread. -/
namespace Nozomi

open Text Filesystem Execution

namespace StreamingFileHandler

section Loop

variable {size : Nat} (allocator : Allocator size)

/-- A piece of the body adds its own tasks to the queue, which do not depend on what
is in it. -/
theorem sendBody_append (handler : StreamingHTTPHandler) (data : IOBuf) :
    handler.sendBody data =
      ⟨handler.sentHeaders, handler.evb ++ (StreamingHTTPHandler.sendBody ⟨true, []⟩ data).evb⟩ := by
  unfold StreamingHTTPHandler.sendBody
  split
  · simp
  · simp [StreamingHTTPHandler.runInEventBaseThread]

theorem sendBody_sentHeaders (handler : StreamingHTTPHandler) (data : IOBuf) :
    (handler.sendBody data).sentHeaders = handler.sentHeaders := by
  rw [sendBody_append]

/-- The loop only adds to the queue, so that it can be looked at from an empty one. -/
theorem readLoop_append (fuel call : Nat) (fin : InputStream) (handler : StreamingHTTPHandler) :
    readLoop allocator fuel call fin handler =
      (readLoop allocator fuel call fin ⟨true, []⟩).map fun sent =>
        ⟨handler.sentHeaders, handler.evb ++ sent.evb⟩ := by
  induction fuel generalizing call fin handler with
  | zero => rfl
  | succ fuel ih =>
      cases hEof : fin.eof with
      | true =>
          rw [readLoop_eof allocator _ _ _ _ hEof, readLoop_eof allocator _ _ _ _ hEof]
          simp
      | false =>
          rw [readLoop_step allocator _ _ _ _ hEof, readLoop_step allocator _ _ _ _ hEof, ih,
            ih _ _ (StreamingHTTPHandler.sendBody _ _), sendBody_append handler, Option.map_map]
          congr 1
          funext sent
          simp

/-- More fuel does not change what the loop sends. -/
theorem readLoop_mono {fuel call : Nat} {fin : InputStream} {handler sent : StreamingHTTPHandler}
    (h : readLoop allocator fuel call fin handler = some sent) (more : Nat) :
    readLoop allocator (fuel + more) call fin handler = some sent := by
  induction fuel generalizing call fin handler with
  | zero => cases h
  | succ fuel ih =>
      rw [Nat.add_right_comm]
      cases hEof : fin.eof with
      | true =>
          rw [readLoop_eof allocator _ _ _ _ hEof] at h ⊢
          exact h
      | false =>
          rw [readLoop_step allocator _ _ _ _ hEof] at h ⊢
          exact ih h

end Loop

end StreamingFileHandler

/-- Whether the response headers have been sent. -/
def IOTask.pastHeaders : IOTask → Bool
  | .scheduled | .opened _ => false
  | .reading _ _ | .filled _ _ _ | .ending | .finished => true

namespace FileTransfer

open StreamingFileHandler

section Plan

variable {size : Nat} (allocator : Allocator size)

/-- What `sendBody` queues for a chain. -/
def bodyTasks (data : IOBuf) : List Task := (StreamingHTTPHandler.sendBody ⟨true, []⟩ data).evb

/-- What is left to queue at the head of the read loop. -/
def loopPlan (fuel call : Nat) (fin : InputStream) : Option (List Task) :=
  (readLoop allocator fuel call fin ⟨true, []⟩).map fun sent => sent.evb ++ [.sendEOF]

def openedPlan (fuel : Nat) : Option InputStream → Option (List Task)
  | none => some [.sendResponseHeaders (HTTPResponse.ofStatus 404), .sendEOF]
  | some fin => (loopPlan allocator fuel 0 fin).map (.sendResponseHeaders (HTTPResponse.ofStatus 200) :: ·)

/-- What the task on the I/O executor is still going to queue, with `none` if the
read loop does not end within the fuel. -/
def plan (file : Option InputStream) (fuel : Nat) : IOTask → Option (List Task)
  | .scheduled => openedPlan allocator fuel file
  | .opened fin => openedPlan allocator fuel fin
  | .reading call fin => loopPlan allocator fuel call fin
  | .filled call fin buf =>
      (loopPlan allocator fuel (call + 1) fin).map (bodyTasks (IOBuf.copyBuffer buf.data) ++ ·)
  | .ending => some [.sendEOF]
  | .finished => some []

/-- At the end of the file the loop is left, and the end of the message is sent. -/
theorem loopPlan_eof {fin : InputStream} (hEof : fin.eof = true) (fuel call : Nat) :
    loopPlan allocator (fuel + 1) call fin = some [.sendEOF] := by
  rw [loopPlan, readLoop_eof allocator _ _ _ _ hEof]
  rfl

/-- One round of the loop sends the chunk that it reads, and goes on with the stream
that this leaves. -/
theorem loopPlan_step {fin : InputStream} (hEof : fin.eof = false) (fuel call : Nat) :
    loopPlan allocator (fuel + 1) call fin =
      (loopPlan allocator fuel (call + 1) (readChunk allocator call fin).2).map
        (bodyTasks (IOBuf.copyBuffer (readChunk allocator call fin).1.data) ++ ·) := by
  rw [loopPlan, readLoop_step allocator _ _ _ _ hEof, readLoop_append, loopPlan, Option.map_map,
    Option.map_map]
  congr 1
  funext sent
  simp [bodyTasks]

theorem loopPlan_mono {fuel call : Nat} {fin : InputStream} {tasks : List Task}
    (h : loopPlan allocator fuel call fin = some tasks) (more : Nat) :
    loopPlan allocator (fuel + more) call fin = some tasks := by
  obtain ⟨sent, hSent, hTasks⟩ := Option.map_eq_some_iff.mp h
  exact Option.map_eq_some_iff.mpr ⟨sent, readLoop_mono allocator hSent more, hTasks⟩

end Plan

/-- The closures in the queue, without the deletions. -/
def queued (transfer : FileTransfer) : List Task :=
  transfer.evb.filterMap fun entry =>
    match entry with
    | .send task => some task
    | .deletion => none

/-- What a call queues is added behind what is queued, as far as it is to be sent. -/
theorem queued_call (s : FileTransfer) (send : StreamingHTTPHandler → StreamingHTTPHandler) :
    (s.call send).queued = s.queued ++ (send ⟨s.sentHeaders, []⟩).evb := by
  have hSends : ∀ tasks : List Task, (tasks.map Queued.send).filterMap
      (fun entry => match entry with | .send task => some task | .deletion => none) = tasks := by
    intro tasks
    induction tasks with
    | nil => rfl
    | cons task tasks ih => simp [ih]
  simp [queued, call, hSends]

theorem call_evb_length (s : FileTransfer) (send : StreamingHTTPHandler → StreamingHTTPHandler) :
    (s.call send).evb.length = s.evb.length + (send ⟨s.sentHeaders, []⟩).evb.length := by
  simp [call]

/-- The events that the transport decides on. -/
def Event.fromTransport : Event → Bool
  | .onError | .requestComplete => true
  | _ => false

/-- A step that uses no deleted handler. -/
def Defined (s : FileTransfer) (event : Event) : Prop := event.usesHandler = true → s.alive = true

instance (s : FileTransfer) (event : Event) : Decidable (Defined s event) :=
  inferInstanceAs (Decidable (event.usesHandler = true → s.alive = true))

/-- The `DCHECK`s of the three send functions. -/
def Checks (s : FileTransfer) : Event → Prop
  | .sendResponseHeaders => s.sentHeaders = false
  | .sendBody | .sendEOF => s.sentHeaders = true
  | _ => True

/-- A bound on the steps that the I/O task has left, if its loop ends within the fuel. -/
def stepsLeft (fuel : Nat) : IOTask → Nat
  | .scheduled => 2 * fuel + 3
  | .opened _ => 2 * fuel + 2
  | .reading _ _ => 2 * fuel
  | .filled _ _ _ => 2 * fuel + 1
  | .ending => 1
  | .finished => 0

/-- What is left to do for both threads. A step of the I/O task queues one closure
at most, which is one more step of the event base. -/
def workLeft (fuel : Nat) (s : FileTransfer) : Nat := 2 * stepsLeft fuel s.io + s.evb.length

section Runs

variable (fs : FileSystem) {handler : StreamingFileHandler}
  (allocator : Allocator handler.readBufferSize)

/-- What one step does to the closures: the I/O task puts those it has made at the
end of the queue, and the event base runs those at its front. -/
structure Accounts (s : FileTransfer) (event : Event) (t : FileTransfer) (made ran : List Task)
    (used : Nat) : Prop where
  queue : s.queued ++ made = ran ++ t.queued
  plan : ∀ fuel, plan allocator (fs.ifstream handler.path) (fuel + used) s.io =
    (plan allocator (fs.ifstream handler.path) fuel t.io).map (made ++ ·)
  builder : t.responseBuilder =
    (ran.flatMap Task.calls).foldl ResponseBuilder.call s.responseBuilder
  ends : .sendEOF ∈ made → t.io = .finished
  stays : s.io = .finished → t.io = .finished
  enough : ∀ fuel tasks, FileTransfer.plan allocator (fs.ifstream handler.path) fuel s.io = some tasks →
    used ≤ fuel
  work : event.fromTransport = false → ∀ fuel, workLeft fuel t < workLeft (fuel + used) s

variable {fs allocator} {s t : FileTransfer} {event : Event}

/-- A step of the I/O task that reads nothing, and goes on to another place. -/
theorem accounts_of_task {io : IOTask} {made : List Task} (hTask : s.io = io) (hOpen : io ≠ .finished)
    (hQueue : t.queued = s.queued ++ made) (hBuilder : t.responseBuilder = s.responseBuilder)
    (hPlan : ∀ fuel, plan allocator (fs.ifstream handler.path) fuel io =
      (plan allocator (fs.ifstream handler.path) fuel t.io).map (made ++ ·))
    (hEnds : .sendEOF ∈ made → t.io = .finished)
    (hLength : t.evb.length ≤ s.evb.length + 1)
    (hLess : ∀ fuel, stepsLeft fuel t.io < stepsLeft fuel io) :
    Accounts fs allocator s event t made [] 0 where
  queue := by rw [hQueue, List.nil_append]
  plan := by
    intro fuel
    rw [hTask]
    exact hPlan fuel
  builder := hBuilder
  ends := hEnds
  stays := fun hFinished => absurd (hTask.symm.trans hFinished) hOpen
  enough := fun _ _ _ => Nat.zero_le _
  work := by
    intro _ fuel
    have hStep := hLess fuel
    simp only [workLeft, hTask, Nat.add_zero]
    omega

/-- A step of the I/O task in its loop, which has met its condition. The fuel of the
plan goes down with the round. -/
theorem accounts_of_loop {call : Nat} {fin : InputStream} {made : List Task}
    (hTask : s.io = .reading call fin) (hQueue : t.queued = s.queued ++ made)
    (hBuilder : t.responseBuilder = s.responseBuilder)
    (hPlan : ∀ fuel, loopPlan allocator (fuel + 1) call fin =
      (plan allocator (fs.ifstream handler.path) fuel t.io).map (made ++ ·))
    (hEnds : .sendEOF ∈ made → t.io = .finished)
    (hLength : t.evb.length ≤ s.evb.length + 1)
    (hLess : ∀ fuel, stepsLeft fuel t.io < 2 * (fuel + 1)) :
    Accounts fs allocator s event t made [] 1 where
  queue := by rw [hQueue, List.nil_append]
  plan := by
    intro fuel
    rw [hTask]
    exact hPlan fuel
  builder := hBuilder
  ends := hEnds
  stays := by
    intro hFinished
    rw [hTask] at hFinished
    cases hFinished
  enough := by
    intro fuel tasks h
    cases fuel with
    | zero =>
        rw [hTask] at h
        cases h
    | succ fuel => exact Nat.le_add_left 1 fuel
  work := by
    intro _ fuel
    have hStep := hLess fuel
    have hHere : stepsLeft (fuel + 1) s.io = 2 * (fuel + 1) := by rw [hTask]; rfl
    simp only [workLeft, hHere]
    omega

/-- A step that leaves the I/O task where it is. -/
theorem accounts_of_queue {ran : List Task} (hTask : t.io = s.io) (hQueue : s.queued = ran ++ t.queued)
    (hBuilder : t.responseBuilder =
      (ran.flatMap Task.calls).foldl ResponseBuilder.call s.responseBuilder)
    (hLength : event.fromTransport = false → t.evb.length < s.evb.length) :
    Accounts fs allocator s event t [] ran 0 where
  queue := by rw [hQueue, List.append_nil]
  plan := by
    intro fuel
    rw [hTask]
    exact Option.map_id'.symm
  builder := hBuilder
  ends := by simp
  stays := fun hFinished => hTask.trans hFinished
  enough := fun _ _ _ => Nat.zero_le _
  work := by
    intro hQuiet fuel
    have hShorter := hLength hQuiet
    simp only [workLeft, hTask, Nat.add_zero]
    omega

/-- Every step keeps the order of the queue, whichever thread takes it. What is queued
is taken off the plan, and what is run is taken off the queue. -/
theorem step_accounts (h : step fs handler allocator s event = some t) :
    ∃ made ran used, Accounts fs allocator s event t made ran used := by
  cases step_turn h with
  | openFile hTask =>
      refine ⟨[], [], 0, accounts_of_task hTask (by simp) ?_ rfl ?_ (by simp) (by simp) ?_⟩
      · exact (List.append_nil _).symm
      · exact fun _ => Option.map_id'.symm
      · simp [stepsLeft]
  | notFound hTask =>
      have hMade := queued_call s (·.sendResponseHeaders (HTTPResponse.ofStatus 404))
      have hLength := call_evb_length s (·.sendResponseHeaders (HTTPResponse.ofStatus 404))
      refine ⟨_, [], 0, accounts_of_task hTask (by simp) hMade rfl (fun _ => rfl) ?_ hLength.le ?_⟩
      · exact fun hMem => absurd hMem (sendResponseHeaders_evb _ _ rfl)
      · simp [stepsLeft]
  | found hTask =>
      have hMade := queued_call s (·.sendResponseHeaders (HTTPResponse.ofStatus 200))
      have hLength := call_evb_length s (·.sendResponseHeaders (HTTPResponse.ofStatus 200))
      refine ⟨_, [], 0, accounts_of_task hTask (by simp) hMade rfl (fun _ => rfl) ?_ hLength.le ?_⟩
      · exact fun hMem => absurd hMem (sendResponseHeaders_evb _ _ rfl)
      · simp [stepsLeft]
  | @read call fin hTask hEof =>
      refine ⟨[], [], 1, accounts_of_loop hTask ?_ rfl ?_ (by simp) (by simp) ?_⟩
      · exact (List.append_nil _).symm
      · exact fun fuel => (loopPlan_step allocator hEof fuel call).trans Option.map_id'.symm
      · simp [stepsLeft]
        omega
  | @sendBody call fin buf hTask =>
      have hMade := queued_call s (·.sendBody (IOBuf.copyBuffer buf.data))
      have hLength := call_evb_length s (·.sendBody (IOBuf.copyBuffer buf.data))
      have hTasks : (bodyTasks (IOBuf.copyBuffer buf.data)).length ≤ 1 := by
        unfold bodyTasks StreamingHTTPHandler.sendBody
        split <;> simp [StreamingHTTPHandler.runInEventBaseThread]
      rw [sendBody_append] at hMade hLength
      refine ⟨_, [], 0, accounts_of_task hTask (by simp) hMade rfl (fun _ => rfl) ?_ ?_ ?_⟩
      · exact fun hMem => absurd hMem (sendBody_evb ⟨true, []⟩ _ rfl)
      · exact hLength.trans_le (Nat.add_le_add_left hTasks _)
      · simp [stepsLeft]
  | sendEOF hTask =>
      have hLength := call_evb_length s (·.sendEOF)
      refine ⟨_, [], 0, accounts_of_task hTask (by simp) (queued_call s (·.sendEOF)) rfl (fun _ => rfl)
        (fun _ => rfl) hLength.le ?_⟩
      simp [stepsLeft]
  | @leaveLoop call fin hTask hEof =>
      have hLength := call_evb_length s (·.sendEOF)
      refine ⟨_, [], 1, accounts_of_loop hTask (queued_call s (·.sendEOF)) rfl ?_ (fun _ => rfl) hLength.le ?_⟩
      · exact fun fuel => loopPlan_eof allocator hEof fuel call
      · simp [stepsLeft]
  | @runTask task rest hQueue =>
      refine ⟨[], [task], 0, accounts_of_queue rfl ?_ (by simp) (by simp [hQueue])⟩
      simp [FileTransfer.queued, hQueue]
  | @runDeletion rest hQueue =>
      refine ⟨[], [], 0, accounts_of_queue rfl ?_ rfl (by simp [hQueue])⟩
      simp [FileTransfer.queued, hQueue]
  | onError | requestComplete =>
      refine ⟨[], [], 0, accounts_of_queue rfl ?_ rfl (by simp [Event.fromTransport])⟩
      simp [queued, queueDeletion]

variable (fs allocator)

/-- The closures that are run if both threads go on to their ends: those in the queue,
and then those of the I/O task. -/
def planned (s : FileTransfer) (fuel : Nat) : Option (List Task) :=
  (plan allocator (fs.ifstream handler.path) fuel s.io).map (s.queued ++ ·)

/-- After some steps, the closures that have been run and those that will be are the
ones that were planned, and those that were run have emitted. -/
structure Traced (whole : Nat → Option (List Task)) (s : FileTransfer) (done : List Task) (used : Nat) :
    Prop where
  plan : ∀ fuel, whole (fuel + used) = (planned fs allocator s fuel).map (done ++ ·)
  builder : s.responseBuilder = ⟨none, none, done.flatMap Task.emissions⟩
  ends : .sendEOF ∈ done ++ s.queued → s.io = .finished

variable {fs allocator} {whole : Nat → Option (List Task)}

/-- From the scheduled task on, what is planned is what the task will queue. -/
theorem planned_start {fuel : Nat} : planned fs allocator start fuel =
    plan allocator (fs.ifstream handler.path) fuel .scheduled := Option.map_id'

theorem traced_start : Traced fs allocator (planned fs allocator start) start [] 0 where
  plan := fun _ => Option.map_id'.symm
  builder := rfl
  ends := by simp [start, queued]

/-- One step keeps the trace: it plans nothing new, and does at most the next of the
plan. -/
theorem traced_step {done : List Task} {used : Nat}
    (hTraced : Traced fs allocator whole s done used)
    (h : step fs handler allocator s event = some t) :
    ∃ done used, Traced fs allocator whole t done used := by
  obtain ⟨made, ran, more, hStep⟩ := step_accounts h
  have hOrder : done ++ (s.queued ++ made) = done ++ ran ++ t.queued := by
    rw [hStep.queue, List.append_assoc]
  refine ⟨done ++ ran, used + more, ?_, ?_, ?_⟩
  · intro fuel
    rw [Nat.add_comm used, ← Nat.add_assoc, hTraced.plan, planned, planned, hStep.plan, Option.map_map,
      Option.map_map, Option.map_map]
    congr 1
    funext tasks
    simp only [Function.comp_apply, ← List.append_assoc]
    rw [List.append_assoc done, hOrder]
  · rw [hStep.builder, hTraced.builder, Task.foldl_tasks, List.flatMap_append]
  · intro hMem
    rw [← hOrder, ← List.append_assoc, List.mem_append] at hMem
    cases hMem with
    | inl hOld => exact hStep.stays (hTraced.ends hOld)
    | inr hNew => exact hStep.ends hNew

theorem run_traced {allowed : FileTransfer → Event → Prop} {events : List Event}
    (run : Run (step fs handler allocator) allowed s events t)
    (hStart : Traced fs allocator whole s [] 0) :
    ∃ done used, Traced fs allocator whole t done used := by
  apply run.invariant (fun s => ∃ done used, Traced fs allocator whole s done used)
  · exact ⟨[], 0, hStart⟩
  · intro s event t hOld _ hStep
    obtain ⟨done, used, hTraced⟩ := hOld
    exact traced_step hTraced hStep

/-- A plan ends with the only closure that ends the message, whether the file opens or
not. -/
theorem plan_scheduled {file : Option InputStream} {fuel : Nat} {tasks : List Task}
    (h : plan allocator file fuel .scheduled = some tasks) :
    ∃ before, tasks = before ++ [.sendEOF] ∧ .sendEOF ∉ before := by
  cases file with
  | none =>
      obtain rfl := Option.some.inj h
      exact ⟨[_], rfl, by simp⟩
  | some fin =>
      obtain ⟨loop, hLoop, rfl⟩ := Option.map_eq_some_iff.mp h
      obtain ⟨sent, hSent, rfl⟩ := Option.map_eq_some_iff.mp hLoop
      obtain ⟨count, hEnd⟩ := readLoop_reachesEnd allocator hSent
      obtain ⟨bodies, hBodies⟩ := readLoop_completes allocator hEnd 0 ⟨true, []⟩
      have hLater := hBodies (fuel + (count + 1)) (by omega)
      rw [readLoop_mono allocator hSent] at hLater
      have hEvb : sent.evb = bodies.map .sendBody := by
        rw [Option.some.inj hLater, List.nil_append]
      refine ⟨.sendResponseHeaders (HTTPResponse.ofStatus 200) :: sent.evb, by simp, ?_⟩
      simp [hEvb]

/-- What an I/O task plans does not depend on the fuel, if that is enough. -/
theorem plan_mono {file : Option InputStream} {io : IOTask} {fuel : Nat} {tasks : List Task}
    (h : plan allocator file fuel io = some tasks) (more : Nat) :
    plan allocator file (fuel + more) io = some tasks := by
  have hOpened : ∀ fin : Option InputStream, openedPlan allocator fuel fin = some tasks →
      openedPlan allocator (fuel + more) fin = some tasks := by
    intro fin hFin
    cases fin with
    | none => exact hFin
    | some fin =>
        obtain ⟨loop, hLoop, hTasks⟩ := Option.map_eq_some_iff.mp hFin
        exact Option.map_eq_some_iff.mpr ⟨loop, loopPlan_mono allocator hLoop more, hTasks⟩
  cases io with
  | scheduled => exact hOpened file h
  | opened fin => exact hOpened fin h
  | reading call fin => exact loopPlan_mono allocator h more
  | filled call fin buf =>
      obtain ⟨loop, hLoop, hTasks⟩ := Option.map_eq_some_iff.mp h
      exact Option.map_eq_some_iff.mpr ⟨loop, loopPlan_mono allocator hLoop more, hTasks⟩
  | ending | finished => exact h

theorem planned_mono {fuel : Nat} {tasks : List Task} (h : planned fs allocator s fuel = some tasks)
    (more : Nat) : planned fs allocator s (fuel + more) = some tasks := by
  obtain ⟨rest, hRest, hTasks⟩ := Option.map_eq_some_iff.mp h
  exact Option.map_eq_some_iff.mpr ⟨rest, plan_mono hRest more, hTasks⟩

/-- What has been emitted is the beginning of what was planned. -/
theorem Traced.emitted_prefix {done tasks : List Task} {used fuel : Nat}
    (hTraced : Traced fs allocator (planned fs allocator t) s done used)
    (hTasks : planned fs allocator t fuel = some tasks) :
    s.responseBuilder.emitted <+: tasks.flatMap Task.emissions := by
  have hPlan := hTraced.plan fuel
  rw [planned_mono hTasks] at hPlan
  obtain ⟨rest, _, hSplit⟩ := Option.map_eq_some_iff.mp hPlan.symm
  rw [hTraced.builder, ← hSplit, List.flatMap_append]
  exact List.prefix_append _ _

/-- Once both threads are done, what was planned has been emitted. -/
theorem Traced.emitted_all {done tasks : List Task} {used fuel : Nat}
    (hTraced : Traced fs allocator (planned fs allocator t) s done used)
    (hTasks : planned fs allocator t fuel = some tasks) (hFinished : s.io = .finished)
    (hQueue : s.evb = []) : s.responseBuilder.emitted = tasks.flatMap Task.emissions := by
  have hPlan := hTraced.plan fuel
  rw [planned_mono hTasks, planned, hFinished, queued, hQueue] at hPlan
  obtain rfl : tasks = done := by simpa [FileTransfer.plan] using hPlan
  rw [hTraced.builder]

/-- `onEOM` sends the plan of its I/O task. -/
theorem onEOM_plan (hBase : handler.base = .create)
    (hRegular : fs.isRegularFile handler.path = .ok true) (hModified : notModified fs handler = false)
    (fuel : Nat) :
    onEOM fs handler allocator fuel =
      .ok ((plan allocator (fs.ifstream handler.path) fuel .scheduled).map fun tasks => ⟨true, tasks⟩) := by
  cases hOpen : fs.ifstream handler.path with
  | none =>
      simp only [onEOM, hRegular, hModified, streamFile, hOpen, hBase]
      rfl
  | some fin =>
      rw [onEOM_streams allocator hRegular hModified hOpen, hBase, readLoop_append]
      simp only [plan, openedPlan, loopPlan, Option.map_map]
      congr 2

/-- The `DCHECK`s of the three functions that send never fail: the flag of the
headers is what the place of the I/O task says. -/
theorem step_checks (hFlag : s.sentHeaders = s.io.pastHeaders)
    (h : step fs handler allocator s event = some t) :
    Checks s event ∧ t.sentHeaders = t.io.pastHeaders := by
  cases step_turn h with
  | openFile hTask | read hTask =>
      rw [hTask] at hFlag
      exact ⟨trivial, hFlag⟩
  | notFound hTask | found hTask =>
      rw [hTask] at hFlag
      exact ⟨hFlag, rfl⟩
  | sendBody hTask =>
      rw [hTask] at hFlag
      exact ⟨hFlag, (sendBody_sentHeaders _ _).trans hFlag⟩
  | sendEOF hTask | leaveLoop hTask =>
      rw [hTask] at hFlag
      exact ⟨hFlag, hFlag⟩
  | runTask | runDeletion | onError | requestComplete => exact ⟨trivial, hFlag⟩

/-- Once the end of message was emitted, every closure has been run, as it is the last
of the plan. -/
theorem Traced.ended {done : List Task} {used : Nat}
    (hTraced : Traced fs allocator (planned fs allocator start) s done used)
    (hEOM : .eom ∈ s.responseBuilder.emitted) :
    FileTransfer.plan allocator (fs.ifstream handler.path) used .scheduled = some done := by
  rw [hTraced.builder] at hEOM
  obtain ⟨task, hTask, hEmits⟩ := List.mem_flatMap.mp hEOM
  obtain rfl := eom_mem_emissions task hEmits
  have hFinished := hTraced.ends (List.mem_append_left _ hTask)
  have hPlan := hTraced.plan 0
  rw [planned_start, planned, hFinished, Nat.zero_add] at hPlan
  have hAll : FileTransfer.plan allocator (fs.ifstream handler.path) used .scheduled =
      some (done ++ s.queued) := by
    rw [hPlan]
    simp [FileTransfer.plan]
  obtain ⟨before, hBefore, hOnce⟩ := plan_scheduled hAll
  have hQueue : s.queued = [] := by
    by_contra hSome
    obtain ⟨rest, last, hRest⟩ := List.eq_nil_or_concat s.queued |>.resolve_left hSome
    rw [hRest, List.concat_eq_append, ← List.append_assoc] at hBefore
    obtain ⟨hSplit, _⟩ := List.append_inj' hBefore rfl
    exact hOnce (hSplit ▸ List.mem_append_left _ hTask)
  rw [hAll, hQueue, List.append_nil]

variable (fs handler allocator)

/-- Whichever way the two threads take turns, and whatever the transport does, the
transport gets what `onEOM` sends on one thread: a part of it from its beginning,
and all of it once the message has ended. No `DCHECK` of the send functions fails. -/
theorem transfer_refines_onEOM (hBase : handler.base = .create)
    (hRegular : fs.isRegularFile handler.path = .ok true) (hModified : notModified fs handler = false)
    {events : List Event} {s : FileTransfer}
    (run : Run (step fs handler allocator) Defined start events s) :
    (∀ fuel final, onEOM fs handler allocator fuel = .ok (some final) →
        s.responseBuilder.emitted <+: final.emissions) ∧
      (.eom ∈ s.responseBuilder.emitted → ∃ fuel final,
        onEOM fs handler allocator fuel = .ok (some final) ∧ s.responseBuilder.emitted = final.emissions) ∧
      ∀ event t, step fs handler allocator s event = some t → Checks s event := by
  obtain ⟨done, used, hTraced⟩ := run_traced run traced_start
  refine ⟨?_, ?_, ?_⟩
  · intro fuel final hFinal
    rw [onEOM_plan hBase hRegular hModified] at hFinal
    obtain ⟨tasks, hTasks, rfl⟩ := Option.map_eq_some_iff.mp (Except.ok.inj hFinal)
    rw [StreamingHTTPHandler.emissions_eq]
    exact hTraced.emitted_prefix (planned_start.trans hTasks)
  · intro hEOM
    refine ⟨used, ⟨true, done⟩, ?_, ?_⟩
    · rw [onEOM_plan hBase hRegular hModified, hTraced.ended hEOM, Option.map_some]
    · rw [hTraced.builder, StreamingHTTPHandler.emissions_eq]
  · intro event t hStep
    have hFlag : s.sentHeaders = s.io.pastHeaders := by
      apply run.invariant (fun s => s.sentHeaders = s.io.pastHeaders) rfl
      intro s event t hOld _ hStep
      exact (step_checks hOld hStep).2
    exact (step_checks hFlag hStep).1

variable {fs handler allocator}

/-- While the transport is quiet, nothing asks for the deletion of the handler. -/
theorem quiet_alive {events : List Event} {s : FileTransfer}
    (run : Run (step fs handler allocator) (fun _ event => event.fromTransport = false) start events s) :
    s.alive = true ∧ .deletion ∉ s.evb := by
  apply run.invariant (fun s => s.alive = true ∧ .deletion ∉ s.evb)
  · exact ⟨rfl, by simp [start]⟩
  · intro s event t hOld hQuiet hStep
    obtain ⟨hAlive, hQueue⟩ := hOld
    cases step_cases hStep with
    | works => exact ⟨hAlive, hQueue⟩
    | sends => exact ⟨hAlive, by simpa [call] using hQueue⟩
    | runTask task rest hFirst =>
        rw [hFirst] at hQueue
        exact ⟨hAlive, fun hMem => hQueue (List.mem_cons_of_mem _ hMem)⟩
    | runDeletion rest hFirst =>
        rw [hFirst] at hQueue
        exact absurd (List.mem_cons_self ..) hQueue
    | onError | requestComplete => cases hQuiet

/-- Neither thread waits for the other: as long as the I/O task or the queue has
something left, there is a step. -/
theorem finished_of_stuck {s : FileTransfer}
    (hStuck : ∀ event, event.fromTransport = false → step fs handler allocator s event = none) :
    s.io = .finished ∧ s.evb = [] := by
  constructor
  · cases hTask : s.io with
    | finished => rfl
    | scheduled =>
        have hNot := hStuck .openFile rfl
        simp [step, hTask] at hNot
    | opened fin =>
        have hNot := hStuck .sendResponseHeaders rfl
        cases fin <;> simp [step, hTask] at hNot
    | reading call fin =>
        cases hEof : fin.eof with
        | true =>
            have hNot := hStuck .sendEOF rfl
            simp [step, hTask, hEof] at hNot
        | false =>
            have hNot := hStuck .read rfl
            simp [step, hTask, hEof] at hNot
    | filled call fin buf =>
        have hNot := hStuck .sendBody rfl
        simp [step, hTask] at hNot
    | ending =>
        have hNot := hStuck .sendEOF rfl
        simp [step, hTask] at hNot
  · cases hEvb : s.evb with
    | nil => rfl
    | cons entry rest =>
        cases entry with
        | deletion =>
            have hNot := hStuck .runDeletion rfl
            simp [step, hEvb] at hNot
        | send task =>
            have hNot := hStuck (.runTask task) rfl
            simp [step, hEvb] at hNot

/-- A run has no more steps than there is work at its start. -/
theorem quiet_length {events : List Event} {s : FileTransfer} {fuel : Nat} {tasks : List Task}
    (hPlan : plan allocator (fs.ifstream handler.path) fuel .scheduled = some tasks)
    (run : Run (step fs handler allocator) (fun _ event => event.fromTransport = false) start events s) :
    events.length ≤ 4 * fuel + 6 := by
  apply run.length_le fun n s => ∃ fuel tasks,
    plan allocator (fs.ifstream handler.path) fuel s.io = some tasks ∧ workLeft fuel s ≤ n
  · intro n s event t hBound hQuiet hStep
    obtain ⟨fuel, tasks, hLeft, hWork⟩ := hBound
    obtain ⟨made, ran, used, hAccounts⟩ := step_accounts hStep
    obtain ⟨fuel, rfl⟩ := Nat.exists_eq_add_of_le' (hAccounts.enough fuel tasks hLeft)
    rw [hAccounts.plan] at hLeft
    obtain ⟨rest, hRest, _⟩ := Option.map_eq_some_iff.mp hLeft
    exact ⟨workLeft fuel t, (hAccounts.work hQuiet fuel).trans_le hWork, fuel, rest, hRest, le_rfl⟩
  · refine ⟨fuel, tasks, hPlan, ?_⟩
    simp only [workLeft, stepsLeft, start, List.length_nil]
    omega

/-- When there is no step left and the transport was quiet, the whole plan has been
emitted, and the transport may complete the request. -/
theorem quiet_completes {fuel : Nat} {tasks : List Task}
    (hTasks : plan allocator (fs.ifstream handler.path) fuel .scheduled = some tasks)
    {events : List Event} {s : FileTransfer}
    (run : Run (step fs handler allocator) (fun _ event => event.fromTransport = false) start events s)
    (hStuck : ∀ event, event.fromTransport = false → step fs handler allocator s event = none) :
    s.responseBuilder.emitted = tasks.flatMap Task.emissions ∧
      step fs handler allocator s .requestComplete = some s.queueDeletion := by
  obtain ⟨hAlive, _⟩ := quiet_alive run
  obtain ⟨hFinished, hEvb⟩ := finished_of_stuck hStuck
  obtain ⟨done, used, hTraced⟩ := run_traced run traced_start
  have hEmitted := hTraced.emitted_all (planned_start.trans hTasks) hFinished hEvb
  refine ⟨hEmitted, ?_⟩
  obtain ⟨before, rfl, _⟩ := plan_scheduled hTasks
  have hEOM : .eom ∈ s.responseBuilder.emitted := by
    rw [hEmitted]
    simp [Task.emissions]
  simp [step, hAlive, hEOM]

variable (fs handler allocator)

/-- As long as the transport is quiet and the device delivers the file, both threads
together come to an end, after a number of steps that is bounded by the length of the
file, and then the whole response was emitted and the transport may complete the
request. -/
theorem transfer_completes (hBase : handler.base = .create) (hSize : 1 ≤ handler.readBufferSize)
    (hRegular : fs.isRegularFile handler.path = .ok true) (hModified : notModified fs handler = false)
    {content : Bytes} {fault : Option Nat}
    (hOpen : fs.ifstream handler.path = some (.openedOn content fault))
    (hDevice : ∀ k ∈ fault, content.length < k) :
    ∃ final, (∀ fuel, content.length / handler.readBufferSize + 2 ≤ fuel →
        onEOM fs handler allocator fuel = .ok (some final)) ∧
      ∀ events s,
        Run (step fs handler allocator) (fun _ event => event.fromTransport = false) start events s →
          events.length ≤ 4 * (content.length / handler.readBufferSize) + 14 ∧
            ((∀ event, event.fromTransport = false → step fs handler allocator s event = none) →
              s.responseBuilder.emitted = final.emissions ∧
                step fs handler allocator s .requestComplete = some s.queueDeletion) := by
  have hSound : (InputStream.openedOn content fault).Sound := ⟨rfl, rfl, hDevice⟩
  obtain ⟨count, hCount, hEnd⟩ := hSound.ends hSize
  obtain ⟨bodies, hBodies⟩ := readLoop_completes allocator hEnd 0
    (handler.base.sendResponseHeaders (HTTPResponse.ofStatus 200))
  have hRest : (InputStream.openedOn content fault).rest = content := rfl
  rw [hRest] at hCount
  have hFinal : ∀ fuel, content.length / handler.readBufferSize + 2 ≤ fuel →
      onEOM fs handler allocator fuel = .ok (some (StreamingHTTPHandler.sendEOF
        { handler.base.sendResponseHeaders (HTTPResponse.ofStatus 200) with
          evb := (handler.base.sendResponseHeaders (HTTPResponse.ofStatus 200)).evb ++
            bodies.map .sendBody })) := by
    intro fuel hFuel
    rw [onEOM_streams allocator hRegular hModified hOpen, hBodies fuel (by omega)]
    rfl
  refine ⟨_, hFinal, fun events s run => ?_⟩
  have hPlan := hFinal _ (Nat.le_refl _)
  rw [onEOM_plan hBase hRegular hModified] at hPlan
  obtain ⟨tasks, hTasks, hSent⟩ := Option.map_eq_some_iff.mp (Except.ok.inj hPlan)
  refine ⟨(quiet_length hTasks run).trans (by omega), fun hStuck => ?_⟩
  rw [← hSent, StreamingHTTPHandler.emissions_eq]
  exact quiet_completes hTasks run hStuck

end Runs

/-- The file "hi" is read in one go, and its one body is emitted before the message
ends, although the event base runs behind. -/
theorem transfer_refines_onEOM_example : ∃ fuel final,
    onEOM (oneFile (ascii "hi")) (.create (ascii "www/hi") 4)
        (constantAllocator (ascii "full") (by decide)) fuel = .ok (some final) ∧
      [.headers 200 [], .body (IOBuf.copyBuffer (ascii "hi")), .eom] = final.emissions := by
  have hRun : Run transferStep Defined start
      [.openFile, .sendResponseHeaders, .read, .runTask (.sendResponseHeaders (HTTPResponse.ofStatus 200)),
        .sendBody, .sendEOF, .runTask (.sendBody (IOBuf.copyBuffer (ascii "hi"))), .runTask .sendEOF]
      ⟨.finished, true, [],
        ⟨none, none, [.headers 200 [], .body (IOBuf.copyBuffer (ascii "hi")), .eom]⟩, true⟩ :=
    Run.of_execute rfl
  exact (transfer_refines_onEOM _ _ _ rfl rfl rfl hRun).2.1 (by simp)

/-- A file of two bytes that is read in one chunk. `onEOM` ends with fuel for two
rounds, and its response has one piece. -/
theorem transfer_completes_example : ∃ final,
    onEOM (oneFile (ascii "hi")) (.create (ascii "www/hi") 4)
        (constantAllocator (ascii "full") (by decide)) 2 = .ok (some final) ∧
      [.headers 200 [], .body (IOBuf.copyBuffer (ascii "hi")), .eom] = final.emissions := by
  have hRun : Run transferStep (fun _ event => event.fromTransport = false) start
      [.openFile, .sendResponseHeaders, .read, .sendBody, .sendEOF,
        .runTask (.sendResponseHeaders (HTTPResponse.ofStatus 200)),
        .runTask (.sendBody (IOBuf.copyBuffer (ascii "hi"))), .runTask .sendEOF]
      ⟨.finished, true, [],
        ⟨none, none, [.headers 200 [], .body (IOBuf.copyBuffer (ascii "hi")), .eom]⟩, true⟩ :=
    Run.of_execute rfl
  have hDevice : ∀ k ∈ (none : Option Nat), (ascii "hi").length < k := by simp
  obtain ⟨final, hFinal, hRuns⟩ := transfer_completes (oneFile (ascii "hi")) (.create (ascii "www/hi") 4)
    (constantAllocator (ascii "full") (by decide)) rfl (by decide) rfl rfl rfl hDevice
  refine ⟨final, hFinal 2 (by decide), ((hRuns _ _ hRun).2 ?_).1⟩
  intro event hQuiet
  cases event with
  | onError | requestComplete => cases hQuiet
  | _ => rfl

end FileTransfer

end Nozomi
