import Nozomi.Serving.Server

/-! What happens to a server whose callers do not wait for each other, or whose start fails.
No order of the calls is assumed here, except that the server is started once. -/
namespace Nozomi.Server

open Execution

/-- The server was started at most once. -/
def Once (server : Server) : Prop := server.history.count .start ≤ 1

/-- What holds of a server that was started at most once, whatever its callers do. -/
structure Consistent (server : Server) : Prop where
  idle : .start ∉ server.history →
    server.history = [] ∧ server.mainThread = none ∧ server.startPromise = none ∧ .stopping ∉ server.stoppers
  since : .start ∈ server.history → server.history = server.history.sinceStart ++ [.start]
  up : .start ∈ server.history → .stop ∉ server.history → server.mainThread = some true
  called : .waiting ∈ server.stoppers ∨ .joining ∈ server.stoppers ∨ .clearing ∈ server.stoppers →
    .stop ∈ server.history
  served : .stop ∈ server.history → .onSuccess ∈ server.history
  onSuccess : .onSuccess ∈ server.history → .onError ∉ server.history
  failed : server.startPromise = some false → .onError ∈ server.history
  destroyed : server.destroyed = true → .start ∈ server.history → .stop ∈ server.history

variable {library : HTTPServer} {server next later : Server} {event : Event} {events more : List Event}
  {i j k : Nat}

/-- Before any call nothing has happened to proxygen's server, and there is no
thread that could be in the wrong place. -/
theorem consistent_create : Consistent create where
  idle _ := ⟨rfl, rfl, rfl, by decide⟩
  since := by decide
  up := by decide
  called := by decide
  served := by decide
  onSuccess := by decide
  failed := by decide
  destroyed := by decide

/-- Nothing happens to proxygen's server unless it has been started: only the main
thread and the callers of `stop` use it, and both need a start. -/
theorem started_of_mem {happening : Happening} (hServer : Consistent server)
    (hMem : happening ∈ server.history) : .start ∈ server.history := by
  by_contra hNot
  rw [(hServer.idle hNot).1] at hMem
  cases hMem

theorem mem_history {happening : Happening} {history : History} (hMem : happening ∈ history.sinceStart) :
    happening ∈ history := (List.takeWhile_sublist _).mem hMem

/-- What has happened to a server that was started once has happened since its start. -/
theorem Consistent.mem_sinceStart {happening : Happening} (hServer : Consistent server)
    (hMem : happening ∈ server.history) (hOther : happening ≠ .start) : happening ∈ server.history.sinceStart := by
  have hAll := hMem
  rw [hServer.since (started_of_mem hServer hMem)] at hAll
  rcases List.mem_append.mp hAll with hSince | hStart
  · exact hSince
  · exact absurd (List.mem_singleton.mp hStart) hOther

/-- Where the start comes last in the history, nothing else has happened. -/
theorem Consistent.starting (hServer : Consistent server) (hHead : server.history.head? = some .start) :
    server.history = [.start] := by
  obtain ⟨earlier, hEarlier⟩ : ∃ earlier, server.history = .start :: earlier := List.head?_eq_some_iff.mp hHead
  have hSince := hServer.since (by rw [hEarlier]; exact List.mem_cons_self)
  have hNone : server.history.sinceStart = [] := by rw [hEarlier, History.sinceStart]; simp
  rw [hNone] at hSince
  exact hSince

/-- Something else happens to the server than a start or its callback. -/
theorem Consistent.happen {happening : Happening} (hServer : Consistent server) (hStarted : .start ∈ server.history)
    (hStart : happening ≠ .start) (hSuccess : happening ≠ .onSuccess) (hError : happening ≠ .onError)
    (hStop : happening = .stop → .onSuccess ∈ server.history) :
    Consistent { server with history := happening :: server.history } where
  idle hNot := absurd (List.mem_cons_of_mem _ hStarted) hNot
  since _ := by
    have hCons : History.sinceStart (happening :: server.history) = happening :: server.history.sinceStart := by
      rw [History.sinceStart, List.takeWhile_cons_of_pos (by simpa using hStart)]
      rfl
    dsimp only
    rw [hCons, List.cons_append, ← hServer.since hStarted]
  up _ hNot := hServer.up hStarted fun hMem => hNot (List.mem_cons_of_mem _ hMem)
  called hCalled := List.mem_cons_of_mem _ (hServer.called hCalled)
  served hMem := by
    rcases List.mem_cons.mp hMem with hHere | hMem
    · exact List.mem_cons_of_mem _ (hStop hHere.symm)
    · exact List.mem_cons_of_mem _ (hServer.served hMem)
  onSuccess hMem hBoth := hServer.onSuccess (List.mem_of_ne_of_mem hSuccess.symm hMem)
    (List.mem_of_ne_of_mem hError.symm hBoth)
  failed hFailed := List.mem_cons_of_mem _ (hServer.failed hFailed)
  destroyed hDestroyed _ := List.mem_cons_of_mem _ (hServer.destroyed hDestroyed hStarted)

/-- A thread of `stop` goes on to its next step. -/
theorem Consistent.set {after : Stopper} (hServer : Consistent server)
    (hStopping : after = .stopping → .start ∈ server.history)
    (hCalled : after = .waiting ∨ after = .joining ∨ after = .clearing → .stop ∈ server.history) :
    Consistent { server with stoppers := server.stoppers.set k after } := by
  have hOld : ∀ stopper, stopper ∈ server.stoppers.set k after → stopper ∈ server.stoppers ∨ stopper = after :=
    fun _ => List.mem_or_eq_of_mem_set
  refine ⟨?_, hServer.since, hServer.up, ?_, hServer.served, hServer.onSuccess, hServer.failed,
    hServer.destroyed⟩
  · intro hNot
    obtain ⟨hHistory, hThread, hPromise, hNone⟩ := hServer.idle hNot
    refine ⟨hHistory, hThread, hPromise, fun hMem => ?_⟩
    rcases hOld _ hMem with hMem | hHere
    · exact hNone hMem
    · exact hNot (hStopping hHere.symm)
  · rintro (hMem | hMem | hMem)
    · exact (hOld _ hMem).elim (fun hMem => hServer.called (.inl hMem)) fun hHere => hCalled (.inl hHere.symm)
    · exact (hOld _ hMem).elim (fun hMem => hServer.called (.inr (.inl hMem)))
        fun hHere => hCalled (.inr (.inl hHere.symm))
    · exact (hOld _ hMem).elim (fun hMem => hServer.called (.inr (.inr hMem)))
        fun hHere => hCalled (.inr (.inr hHere.symm))

/-- The main thread is joined or forgotten after `stop` was called. -/
theorem Consistent.join (hServer : Consistent server) (hStop : .stop ∈ server.history) (thread : Option Bool) :
    Consistent { server with mainThread := thread } where
  idle hNot := absurd (started_of_mem hServer hStop) hNot
  since := hServer.since
  up _ hNot := absurd hStop hNot
  called := hServer.called
  served := hServer.served
  onSuccess := hServer.onSuccess
  failed := hServer.failed
  destroyed := hServer.destroyed

/-- The steps of a caller of `stop` keep what is consistent: each call of proxygen's
server is recorded before the thread gets past it. -/
theorem Consistent.advance {stopper after : Stopper} (hLibrary : library.Documented) (hServer : Consistent server)
    (hStopper : server.stoppers[k]? = some stopper) (h : Advance library server stopper next after) :
    Consistent { next with stoppers := server.stoppers.set k after } := by
  have hMem := List.mem_of_getElem? hStopper
  cases h with
  | look =>
      refine hServer.set ?_ ?_
      · intro _
        by_contra hNot
        have hThread := (hServer.idle hNot).2.1
        simp_all
      · split <;> simp
  | stop _ hAllowed =>
      have hSuccess := mem_history (hLibrary.stop_late _ hAllowed)
      have hNext : Consistent { server with history := .stop :: server.history } :=
        hServer.happen (started_of_mem hServer hSuccess) (by simp) (by simp) (by simp) fun _ => hSuccess
      exact hNext.set (by simp) fun _ => List.mem_cons_self
  | wait =>
      have hStop := hServer.called (.inl hMem)
      have hNext : Consistent { server with history := .stopped :: server.history } :=
        hServer.happen (started_of_mem hServer hStop) (by simp) (by simp) (by simp) (by simp)
      exact hNext.set (by simp) fun _ => List.mem_cons_of_mem _ hStop
  | join =>
      have hStop := hServer.called (.inr (.inl hMem))
      exact (hServer.join hStop _).set (by simp) fun _ => hStop
  | clear =>
      have hStop := hServer.called (.inr (.inr hMem))
      exact (hServer.join hStop _).set (by simp) fun _ => hStop
  | fulfil => exact hServer.set (by simp) (by simp)

/-- No call of `stop` has come to proxygen's server yet. -/
theorem Consistent.unstopped (hServer : Consistent server) (hStop : .stop ∉ server.history) :
    .waiting ∉ server.stoppers ∧ .joining ∉ server.stoppers ∧ .clearing ∉ server.stoppers :=
  ⟨fun hMem => hStop (hServer.called (.inl hMem)), fun hMem => hStop (hServer.called (.inr (.inl hMem))),
    fun hMem => hStop (hServer.called (.inr (.inr hMem)))⟩

/-- A callback of `start` follows the start. -/
theorem Consistent.callback {happening : Happening} {promise : Bool} (hServer : Consistent server)
    (hHead : server.history.head? = some .start)
    (hCallback : happening = .onSuccess ∧ promise = true ∨ happening = .onError ∧ promise = false) :
    Consistent { server with history := happening :: server.history, startPromise := some promise } := by
  have hHistory := hServer.starting hHead
  have hStarted : .start ∈ server.history := List.mem_of_mem_head? hHead
  have hStop : .stop ∉ server.history := by simp [hHistory]
  obtain ⟨hWaiting, hJoining, hClearing⟩ := hServer.unstopped hStop
  have hThread := hServer.up hStarted hStop
  have hOpen : server.destroyed ≠ true := fun hDestroyed => hStop (hServer.destroyed hDestroyed hStarted)
  rcases hCallback with ⟨rfl, rfl⟩ | ⟨rfl, rfl⟩
  · constructor <;> simp_all [History.sinceStart]
  · constructor <;> simp_all [History.sinceStart]

/-- Every step keeps what is consistent, as long as the server is started once at
most. A second start would make a new main thread beside callers of `stop` that have
seen the first. -/
theorem Consistent.step (hLibrary : library.Documented) (hServer : Consistent server)
    (h : Step library server event next) (hOnce : next.Once) : Consistent next := by
  cases h with
  | start hOpen hThread =>
      have hNew : .start ∉ server.history := by
        intro hMem
        have hPositive := List.count_pos_iff.mpr hMem
        simp only [Once, List.count_cons_self] at hOnce
        omega
      obtain ⟨hHistory, _⟩ := hServer.idle hNew
      obtain ⟨hWaiting, hJoining, hClearing⟩ := hServer.unstopped (by simp [hHistory])
      constructor <;> simp_all [History.sinceStart]
  | stop hOpen =>
      refine ⟨?_, hServer.since, hServer.up, ?_, hServer.served, hServer.onSuccess, hServer.failed,
        hServer.destroyed⟩
      · intro hNot
        obtain ⟨hHistory, hThread, hPromise, hNone⟩ := hServer.idle hNot
        exact ⟨hHistory, hThread, hPromise, by simp [Server.stop, hNone]⟩
      · intro hCalled
        exact hServer.called (by simpa [Server.stop] using hCalled)
  | destroy hOpen _ hThread =>
      refine ⟨hServer.idle, hServer.since, hServer.up, hServer.called, hServer.served, hServer.onSuccess,
        hServer.failed, ?_⟩
      intro _ hStarted
      by_contra hStop
      exact hThread (hServer.up hStarted hStop)
  | onSuccess hAllowed => exact hServer.callback (hLibrary.callback _ (.inl hAllowed)) (.inl ⟨rfl, rfl⟩)
  | onError hAllowed => exact hServer.callback (hLibrary.callback _ (.inr hAllowed)) (.inr ⟨rfl, rfl⟩)
  | returned hAllowed =>
      have hStarted : .start ∈ server.history := by
        rcases (hLibrary.returned _ hAllowed).1 with hStop | hError
        · exact started_of_mem hServer (mem_history hStop)
        · exact started_of_mem hServer (mem_history hError)
      exact hServer.happen hStarted (by simp) (by simp) (by simp) (by simp)
  | advance hStopper hAdvance => exact hServer.advance hLibrary hStopper hAdvance

theorem process_ok {process : Except Failure Server} (h : Server.process library process event = some (.ok next)) :
    ∃ server, process = .ok server ∧ Step library server event next := by
  cases process with
  | error failure => cases h
  | ok server => exact ⟨server, rfl, step_cases h⟩

/-- What has happened to a server stays. -/
theorem history_step (h : Step library server event next) : server.history.Sublist next.history := by
  cases h with
  | start | onSuccess | onError | returned => exact List.sublist_cons_self _ _
  | stop | destroy => exact List.Sublist.refl _
  | advance _ hAdvance =>
      cases hAdvance with
      | stop | wait => exact List.sublist_cons_self _ _
      | look | join | clear | fulfil => exact List.Sublist.refl _

/-- What has happened is never forgotten, so that a run only adds to the history. -/
theorem history_run (run : Run (process library) (fun _ _ => True) (.ok server) events (.ok later)) :
    server.history.Sublist later.history := by
  refine run.invariant
    (fun process => ∀ reached, process = .ok reached → server.history.Sublist reached.history) ?_ ?_ later rfl
  · intro reached hReached
    rw [Except.ok.inj hReached]
  · intro before event after hBefore _ hEvent reached hReached
    subst hReached
    obtain ⟨first, hFirst, hMoves⟩ := process_ok hEvent
    exact (hBefore first hFirst).trans (history_step hMoves)

/-- If the server has been started once at most at the end of a run, then at its
beginning too. -/
theorem once_run (run : Run (process library) (fun _ _ => True) (.ok server) events (.ok later))
    (hOnce : later.Once) : server.Once := Nat.le_trans ((history_run run).count_le _) hOnce

theorem once_step (h : Step library server event next) (hOnce : next.Once) : server.Once :=
  Nat.le_trans ((history_step h).count_le _) hOnce

/-- What every step keeps, as long as the server is started once, holds at the end of a run
that has not failed. -/
theorem run_invariant {Holds : Server → Prop} (hStart : Holds server)
    (hStep : ∀ server event next, Holds server → Step library server event next → next.Once → Holds next)
    (run : Run (process library) (fun _ _ => True) (.ok server) events (.ok later)) (hOnce : later.Once) :
    Holds later := by
  refine run.invariant (fun process => ∀ server, process = .ok server → server.Once → Holds server) ?_ ?_
    later rfl hOnce
  · intro first hFirst _
    exact Except.ok.inj hFirst ▸ hStart
  · intro before event after hBefore _ hEvent server hServer hOnce
    subst hServer
    obtain ⟨first, hFirst, hMoves⟩ := process_ok hEvent
    exact hStep first event server (hBefore first hFirst (once_step hMoves hOnce)) hMoves hOnce

/-- The step of a thread, found from the place of the thread in the list of callers. -/
theorem step_advance {stopper : Stopper} (hStopper : server.stoppers[k]? = some stopper) :
    server.step library (.advance k) = (server.advance library stopper).map fun result =>
      result.map fun next => { next.1 with stoppers := server.stoppers.set k next.2 } := by
  rw [Server.step, hStopper, Option.bind_some]

/-- Every state that a run reaches from a fresh server is consistent, if the server
is started once at most on the way. -/
theorem run_consistent (hLibrary : library.Documented)
    (run : Run (process library) (fun _ _ => True) (.ok create) events (.ok server)) (hOnce : server.Once) :
    Consistent server :=
  run_invariant consistent_create (fun _ _ _ hServer hStep hOnce => hServer.step hLibrary hStep hOnce) run hOnce

/-- After a start that has failed, there is no way to be rid of the server. To destroy it
ends the program at the main thread, at the latest. No call of `stop` has got as far as to
join this thread, since proxygen's server does not allow that it is stopped. -/
theorem failed_start (hLibrary : library.Documented)
    (run : Run (process library) (fun _ _ => True) (.ok create) events (.ok server)) (hOnce : server.Once)
    (hFailed : server.startPromise = some false) :
    server.call library .destroy =
        (if library.allows server.history .destroy then .error .terminate else .error .disallowed) ∧
      ∀ k, (server.stoppers[k]? = some .stopping → server.step library (.advance k) = some (.error .disallowed)) ∧
        server.stoppers[k]? ≠ some .waiting ∧ server.stoppers[k]? ≠ some .joining ∧
        server.stoppers[k]? ≠ some .clearing := by
  have hServer := run_consistent hLibrary run hOnce
  have hError := hServer.failed hFailed
  have hStarted := started_of_mem hServer hError
  have hSuccess : .onSuccess ∉ server.history := fun hMem => hServer.onSuccess hMem hError
  have hStop : .stop ∉ server.history := fun hMem => hSuccess (hServer.served hMem)
  have hThread := hServer.up hStarted hStop
  have hOpen : server.destroyed = false := by
    by_contra hDestroyed
    exact hStop (hServer.destroyed (by simpa using hDestroyed) hStarted)
  obtain ⟨hWaiting, hJoining, hClearing⟩ := hServer.unstopped hStop
  constructor
  · simp [Server.call, hOpen, destroy, hThread]
  · intro k
    refine ⟨?_, fun h => hWaiting (List.mem_of_getElem? h), fun h => hJoining (List.mem_of_getElem? h),
      fun h => hClearing (List.mem_of_getElem? h)⟩
    intro hStopping
    have hAllowed : ¬library.allows server.history .stop = true :=
      fun hAllowed => hSuccess (mem_history (hLibrary.stop_late _ hAllowed))
    rw [step_advance hStopping]
    simp [Server.advance, hOpen, hAllowed, Except.map]

/-- A server whose start has reported an error, while a caller of `stop` has already
seen its main thread: this caller is about to make a call that is not allowed. -/
theorem failed_start_example :
    let server : Server := ⟨[.returned, .onError, .start], some true, some false, [.stopping], false⟩
    server.call (.checked false) .destroy = .error .terminate ∧
      server.step (.checked false) (.advance 0) = some (.error .disallowed) := by
  have run : Run (process (.checked false)) (fun _ _ => True) (.ok create)
      [.call .start, .onError, .call .stop, .advance 0, .returned]
      (.ok ⟨[.returned, .onError, .start], some true, some false, [.stopping], false⟩) := .of_execute rfl
  obtain ⟨hDestroy, hStop⟩ := failed_start (HTTPServer.checked_documented false) run (by unfold Once; decide) rfl
  exact ⟨hDestroy, (hStop 0).1 rfl⟩

/-- The thread of a call of `stop` that has seen the main thread, and has not joined it. -/
def Joins (server : Server) (k : Nat) : Prop :=
  server.stoppers[k]? = some .stopping ∨ server.stoppers[k]? = some .waiting ∨ server.stoppers[k]? = some .joining

/-- A thread keeps on until it has joined the main thread, which only the thread
itself can do with its next step. -/
theorem joins_step (hJoins : server.Joins k) (h : Step library server event next) :
    next.Joins k ∨ server.mainThread = some true ∧ next.mainThread = some false ∧ event = .advance k := by
  have hLength : k < server.stoppers.length := by
    rcases hJoins with h | h | h <;> exact (List.getElem?_eq_some_iff.mp h).1
  cases h with
  | stop =>
      left
      rw [Joins, Server.stop, List.getElem?_append_left hLength]
      exact hJoins
  | @advance next other stopper after hStopper hAdvance =>
      by_cases hHere : other = k
      · subst hHere
        have hSet : (server.stoppers.set other after)[other]? = some after := List.getElem?_set_self hLength
        cases hAdvance with
        | stop => exact .inl (.inr (.inl hSet))
        | wait => exact .inl (.inr (.inr hSet))
        | join _ hThread => exact .inr ⟨hThread, rfl, rfl⟩
        | look | clear | fulfil => rcases hJoins with h | h | h <;> cases hStopper.symm.trans h
      · left
        rw [Joins, List.getElem?_set_ne hHere]
        exact hJoins
  | _ => exact .inl hJoins

/-- A main thread that has been joined does not come back, without a second start. -/
theorem joined_step (hStarted : .start ∈ server.history) (h : Step library server event next) (hOnce : next.Once)
    (hThread : server.mainThread ≠ some true) : next.mainThread ≠ some true := by
  cases h with
  | start =>
      have hPositive := List.count_pos_iff.mpr hStarted
      simp only [Once, List.count_cons_self] at hOnce
      omega
  | advance _ hAdvance => cases hAdvance <;> simp_all
  | _ => exact hThread

/-- Of two threads that have seen the main thread, only one can join it. -/
def Overlaps (i j : Nat) (server : Server) : Prop :=
  .start ∈ server.history ∧
    (server.Joins i ∧ server.Joins j ∨ server.mainThread ≠ some true ∧ (server.Joins i ∨ server.Joins j))

/-- As long as no step fails, one of two overlapping callers stays before its join:
the other one may join the main thread, and there is nothing to join after that. -/
theorem overlaps_step (hApart : i ≠ j) (hOverlaps : server.Overlaps i j) (h : Step library server event next)
    (hOnce : next.Once) : next.Overlaps i j := by
  obtain ⟨hStarted, hJoins⟩ := hOverlaps
  refine ⟨(history_step h).mem hStarted, ?_⟩
  rcases hJoins with ⟨hFirst, hSecond⟩ | ⟨hThread, hFirst | hSecond⟩
  · rcases joins_step hFirst h with hStill | ⟨_, hLeft, rfl⟩
    · rcases joins_step hSecond h with hAlso | ⟨_, hLeft, rfl⟩
      · exact .inl ⟨hStill, hAlso⟩
      · exact .inr ⟨by simp [hLeft], .inl hStill⟩
    · rcases joins_step hSecond h with hStill | ⟨_, _, hSame⟩
      · exact .inr ⟨by simp [hLeft], .inr hStill⟩
      · exact absurd (Event.advance.inj hSame) hApart
  · rcases joins_step hFirst h with hStill | ⟨hHere, _⟩
    · exact .inr ⟨joined_step hStarted h hOnce hThread, .inl hStill⟩
    · exact absurd hHere hThread
  · rcases joins_step hSecond h with hStill | ⟨hHere, _⟩
    · exact .inr ⟨joined_step hStarted h hOnce hThread, .inr hStill⟩
    · exact absurd hHere hThread

/-- Some order of the steps to come goes wrong. -/
def MayFail (library : HTTPServer) (server : Server) : Prop :=
  ∃ events failure, Run (process library) (fun _ _ => True) (.ok server) events (.error failure)

theorem mayFail_now {failure : Failure} (h : server.step library event = some (.error failure)) :
    server.MayFail library := ⟨[event], failure, .cons trivial h (.nil _)⟩

/-- A failure after a step is a failure of the continuation that begins with the
step. -/
theorem mayFail_later (h : server.step library event = some (.ok next)) (hNext : next.MayFail library) :
    server.MayFail library := by
  obtain ⟨events, failure, hRun⟩ := hNext
  exact ⟨event :: events, failure, .cons trivial h hRun⟩

/-- A thread of `stop` that uses a server that is gone goes wrong. -/
theorem mayFail_destroyed {stopper : Stopper} (hDestroyed : server.destroyed = true)
    (hStopper : server.stoppers[k]? = some stopper) (hUses : stopper.uses = true) : server.MayFail library := by
  have hFails : server.step library (.advance k) = some (.error .dangling) := by
    rw [step_advance hStopper, Server.advance.eq_def, if_pos ⟨hDestroyed, hUses⟩]
    rfl
  exact mayFail_now hFails

/-- A thread that is about to join a main thread that is gone, or was joined by
another caller, fails with its next step. -/
theorem mayFail_joining (hThread : server.mainThread ≠ some true)
    (hStopper : server.stoppers[k]? = some .joining) : server.MayFail library := by
  by_cases hDestroyed : server.destroyed = true
  · exact mayFail_destroyed hDestroyed hStopper rfl
  · have hFails : server.step library (.advance k) = some (.error .terminate) := by
      rw [step_advance hStopper, Server.advance.eq_def, if_neg fun h => hDestroyed h.1]
      dsimp only
      rw [if_neg hThread]
      rfl
    exact mayFail_now hFails

/-- A failure after a run is a failure of the continuation that begins with the run. -/
theorem mayFail_run (run : Run (process library) (fun _ _ => True) (.ok server) events (.ok next))
    (hNext : next.MayFail library) : server.MayFail library := by
  obtain ⟨rest, failure, hRest⟩ := hNext
  exact ⟨events ++ rest, failure, run.append hRest⟩

/-- The thread comes to its join, and nothing else changes for the threads. -/
def ReachesJoin (library : HTTPServer) (server : Server) (k : Nat) : Prop :=
  ∃ events next, Run (process library) (fun _ _ => True) (.ok server) events (.ok next) ∧ Consistent next ∧
    next.stoppers[k]? = some .joining ∧ next.mainThread = server.mainThread ∧
    ∀ i, i ≠ k → next.stoppers[i]? = server.stoppers[i]?

/-- A caller that waits in proxygen's `stop` can go on to its join, where proxygen's
server lets its calls complete: what it waits for can happen, unless something fails
before. -/
theorem reaches_of_waiting (hLibrary : library.Documented) (hCompletes : library.Completes)
    (hServer : Consistent server) (hStopper : server.stoppers[k]? = some .waiting) :
    server.MayFail library ∨ server.ReachesJoin library k := by
  by_cases hDestroyed : server.destroyed = true
  · exact .inl (mayFail_destroyed hDestroyed hStopper rfl)
  · have hStop := hServer.called (.inl (List.mem_of_getElem? hStopper))
    have hAllowed := hCompletes.stopped _ (hServer.mem_sinceStart hStop (by simp))
    have hMoves : server.step library (.advance k) = some (.ok { server with
        history := .stopped :: server.history, stoppers := server.stoppers.set k .joining }) := by
      rw [step_advance hStopper, Server.advance.eq_def, if_neg fun h => hDestroyed h.1]
      dsimp only
      rw [if_pos hAllowed]
      rfl
    have hNext := hServer.advance hLibrary hStopper (.wait (by simpa using hDestroyed) hAllowed)
    exact .inr ⟨[.advance k], _, .cons trivial hMoves (.nil _), hNext,
      List.getElem?_set_self (List.getElem?_eq_some_iff.mp hStopper).1, rfl,
      fun i hApart => List.getElem?_set_ne hApart.symm⟩

/-- A caller that has seen the main thread, wherever it is, can go on to its join.
The cases are the places of its thread before the join. -/
theorem reaches_of_joins (hLibrary : library.Documented) (hCompletes : library.Completes)
    (hServer : Consistent server) (hJoins : server.Joins k) :
    server.MayFail library ∨ server.ReachesJoin library k := by
  rcases hJoins with hStopper | hStopper | hStopper
  · by_cases hDestroyed : server.destroyed = true
    · exact .inl (mayFail_destroyed hDestroyed hStopper rfl)
    have hHere : ¬(server.destroyed = true ∧ Stopper.stopping.uses = true) := fun h => hDestroyed h.1
    by_cases hAllowed : library.allows server.history .stop = true
    · have hMoves : server.step library (.advance k) = some (.ok { server with
          history := .stop :: server.history, stoppers := server.stoppers.set k .waiting }) := by
        rw [step_advance hStopper, Server.advance.eq_def, if_neg hHere]
        dsimp only
        rw [if_pos hAllowed]
        rfl
      have hNext := hServer.advance hLibrary hStopper (.stop (by simpa using hDestroyed) hAllowed)
      have hWaiting : (server.stoppers.set k .waiting)[k]? = some .waiting :=
        List.getElem?_set_self (List.getElem?_eq_some_iff.mp hStopper).1
      rcases reaches_of_waiting hLibrary hCompletes hNext hWaiting with hFails | hReaches
      · exact .inl (mayFail_later hMoves hFails)
      · obtain ⟨events, last, run, hLast, hJoining, hThread, hOthers⟩ := hReaches
        exact .inr ⟨.advance k :: events, last, .cons trivial hMoves run, hLast, hJoining, hThread,
          fun i hApart => (hOthers i hApart).trans (List.getElem?_set_ne hApart.symm)⟩
    · have hFails : server.step library (.advance k) = some (.error .disallowed) := by
        rw [step_advance hStopper, Server.advance.eq_def, if_neg hHere]
        dsimp only
        rw [if_neg hAllowed]
        rfl
      exact .inl (mayFail_now hFails)
  · exact reaches_of_waiting hLibrary hCompletes hServer hStopper
  · exact .inr ⟨[], server, .nil _, hServer, hStopper, rfl, fun _ _ => rfl⟩

/-- A thread that comes too late to join the main thread ends the program. -/
theorem mayFail_joined (hLibrary : library.Documented) (hCompletes : library.Completes)
    (hServer : Consistent server) (hThread : server.mainThread ≠ some true) (hJoins : server.Joins k) :
    server.MayFail library := by
  rcases reaches_of_joins hLibrary hCompletes hServer hJoins with hFails | hReaches
  · exact hFails
  · obtain ⟨events, next, run, _, hJoining, hSame, _⟩ := hReaches
    exact mayFail_run run (mayFail_joining (hSame ▸ hThread) hJoining)

/-- Where `start` has returned, the thread at its join is the first to get there, and the
other one is too late. -/
theorem mayFail_returned (hLibrary : library.Documented) (hCompletes : library.Completes)
    (hServer : Consistent server) (hApart : i ≠ j) (hReturned : .returned ∈ server.history.sinceStart)
    (hFirst : server.stoppers[i]? = some .joining) (hSecond : server.Joins j) : server.MayFail library := by
  by_cases hThread : server.mainThread = some true
  · by_cases hDestroyed : server.destroyed = true
    · exact mayFail_destroyed hDestroyed hFirst rfl
    · have hMoves : server.step library (.advance i) = some (.ok { server with
          mainThread := some false, stoppers := server.stoppers.set i .clearing }) := by
        rw [step_advance hFirst, Server.advance.eq_def, if_neg fun h => hDestroyed h.1]
        dsimp only
        rw [if_pos hThread, if_pos hReturned]
        rfl
      have hNext := hServer.advance hLibrary hFirst (.join (by simpa using hDestroyed) hThread hReturned)
      refine mayFail_later hMoves (mayFail_joined hLibrary hCompletes hNext (by simp) (k := j) ?_)
      rw [Joins, List.getElem?_set_ne hApart]
      exact hSecond
  · exact mayFail_joining hThread hFirst

/-- Two threads race for the main thread, and the second one to join it fails. -/
theorem mayFail_race (hLibrary : library.Documented) (hCompletes : library.Completes)
    (hServer : Consistent server) (hApart : i ≠ j) (hFirst : server.stoppers[i]? = some .joining)
    (hSecond : server.Joins j) : server.MayFail library := by
  by_cases hReturned : .returned ∈ server.history.sinceStart
  · exact mayFail_returned hLibrary hCompletes hServer hApart hReturned hFirst hSecond
  · have hStop := hServer.called (.inr (.inl (List.mem_of_getElem? hFirst)))
    have hAllowed := hCompletes.returned _ (hServer.mem_sinceStart hStop (by simp)) hReturned
    have hMoves : server.step library .returned = some (.ok { server with
        history := .returned :: server.history }) := if_pos hAllowed
    have hNext : Consistent { server with history := .returned :: server.history } :=
      hServer.happen (started_of_mem hServer hStop) (by simp) (by simp) (by simp) (by simp)
    exact mayFail_later hMoves
      (mayFail_returned hLibrary hCompletes hNext hApart (by simp [History.sinceStart]) hFirst hSecond)

/-- One of two overlapping callers can go on to its join and past it, and the other
after it. The join of the second one fails, as there is nothing left to join. -/
theorem Overlaps.mayFail (hLibrary : library.Documented) (hCompletes : library.Completes)
    (hServer : Consistent server) (hApart : i ≠ j) (hOverlaps : server.Overlaps i j) : server.MayFail library := by
  obtain ⟨_, ⟨hFirst, hSecond⟩ | ⟨hThread, hJoins⟩⟩ := hOverlaps
  · rcases reaches_of_joins hLibrary hCompletes hServer hFirst with hFails | hReaches
    · exact hFails
    · obtain ⟨events, next, run, hNext, hJoining, _, hOthers⟩ := hReaches
      refine mayFail_run run (mayFail_race hLibrary hCompletes hNext hApart hJoining ?_)
      rw [Joins, hOthers j hApart.symm]
      exact hSecond
  · rcases hJoins with hFirst | hSecond
    · exact mayFail_joined hLibrary hCompletes hServer hThread hFirst
    · exact mayFail_joined hLibrary hCompletes hServer hThread hSecond

/-- Two calls of `stop` that overlap. Once the threads of both have seen the main thread,
one of them never gets past its join. The program can always still go wrong, as long as
proxygen's server lets it go on. -/
theorem overlapping_stops (hLibrary : library.Documented)
    (run : Run (process library) (fun _ _ => True) (.ok create) events (.ok server)) (hApart : i ≠ j)
    (hFirst : server.Joins i) (hSecond : server.Joins j)
    (rest : Run (process library) (fun _ _ => True) (.ok server) more (.ok later)) (hOnce : later.Once) :
    (later.Joins i ∨ later.Joins j) ∧ (library.Completes → later.MayFail library) := by
  have hLater := run_consistent hLibrary (run.append rest) hOnce
  have hServer := run_consistent hLibrary run (once_run rest hOnce)
  have hStarted : .start ∈ server.history := by
    by_contra hNot
    have hHistory := (hServer.idle hNot).1
    obtain ⟨hWaiting, hJoining, _⟩ := hServer.unstopped (by simp [hHistory])
    rcases hFirst with hStopper | hStopper | hStopper
    · exact (hServer.idle hNot).2.2.2 (List.mem_of_getElem? hStopper)
    · exact hWaiting (List.mem_of_getElem? hStopper)
    · exact hJoining (List.mem_of_getElem? hStopper)
  have hOverlaps : later.Overlaps i j :=
    run_invariant ⟨hStarted, .inl ⟨hFirst, hSecond⟩⟩ (fun _ _ _ => overlaps_step hApart) rest hOnce
  refine ⟨?_, fun hCompletes => hOverlaps.mayFail hLibrary hCompletes hLater hApart⟩
  obtain ⟨_, ⟨hJoins, _⟩ | ⟨_, hJoins⟩⟩ := hOverlaps
  · exact .inl hJoins
  · exact hJoins

/-- Two callers of `stop` that have both seen the main thread: a run takes them
there, and the continuation of this run ends in a failure. -/
theorem overlapping_stops_example :
    let server : Server :=
      ⟨[.returned, .stopped, .stop, .onSuccess, .start], none, some true, [.done, .stopping], false⟩
    (server.Joins 0 ∨ server.Joins 1) ∧ server.MayFail (.checked false) := by
  have run : Run (process (.checked false)) (fun _ _ => True) (.ok create)
      [.call .start, .onSuccess, .call .stop, .call .stop, .advance 0, .advance 1]
      (.ok ⟨[.onSuccess, .start], some true, some true, [.stopping, .stopping], false⟩) := .of_execute rfl
  have rest : Run (process (.checked false)) (fun _ _ => True)
      (.ok ⟨[.onSuccess, .start], some true, some true, [.stopping, .stopping], false⟩)
      [.advance 0, .advance 0, .returned, .advance 0, .advance 0, .advance 0]
      (.ok ⟨[.returned, .stopped, .stop, .onSuccess, .start], none, some true, [.done, .stopping], false⟩) :=
    .of_execute rfl
  obtain ⟨hJoins, hFails⟩ := overlapping_stops (i := 0) (j := 1) (HTTPServer.checked_documented false) run
    (by decide) (.inl rfl)
    (.inl rfl) rest (by unfold Once; decide)
  exact ⟨hJoins, hFails (HTTPServer.checked_completes false)⟩

end Nozomi.Server
