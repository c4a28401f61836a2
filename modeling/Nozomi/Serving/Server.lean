import Nozomi.Execution.Run

/-! The life of a server. `start` runs proxygen's server in a thread, each call of `stop`
works in a detached thread of its own, and the steps of all of them may come in any order.
Proxygen's server is a parameter. What it allows, and what it does by itself, may depend
on all that has happened to it. -/
namespace Nozomi

open Execution

/-- What happens to a server of proxygen: the calls that its user makes, the callbacks of
`start`, and the returns of `stop` and of `start`. -/
inductive Happening where
  | start | onSuccess | onError | stop | stopped | returned | destroy
  deriving DecidableEq

/-- What has happened to a server, the last of it first. -/
abbrev History := List Happening

/-- What has happened since the server was last started. -/
def History.sinceStart (history : History) : List Happening := history.takeWhile (· ≠ .start)

/-- The server was started and stopped, and both calls have returned. -/
inductive History.Finished : History → Prop where
  | stopped (earlier : History) : Finished (.returned :: .stopped :: .stop :: .onSuccess :: .start :: earlier)
  | returned (earlier : History) : Finished (.stopped :: .returned :: .stop :: .onSuccess :: .start :: earlier)

/-- A start that is finished has returned, whatever it has called before. -/
theorem History.Finished.returned_mem {history : History} (hFinished : history.Finished) :
    .returned ∈ history.sinceStart := by
  cases hFinished <;> simp [History.sinceStart]

/-- A server of proxygen: the calls that it allows its user at some point of its history,
and what it may do there by itself. -/
structure HTTPServer where
  allows : History → Happening → Bool
  /-- Whether it can be started again once it was stopped. -/
  restarts : Bool

namespace HTTPServer

/-- What the documentation of proxygen says of its servers. Whether they can be started a
second time is left open by it. -/
structure Documented (library : HTTPServer) : Prop where
  start_new : library.allows [] .start = true
  start_again : ∀ history, History.Finished history → library.allows history .start = library.restarts
  /-- `start` calls one of its callbacks, after all has been set up or has failed. -/
  callback : ∀ history, library.allows history .onSuccess = true ∨ library.allows history .onError = true →
    history.head? = some .start
  /-- `stop` can be called from any thread, but only after `start` has called `onSuccess`. -/
  stop_late : ∀ history, library.allows history .stop = true → .onSuccess ∈ history.sinceStart
  stop_first : ∀ earlier, library.allows (.onSuccess :: .start :: earlier) .stop = true
  /-- `start` blocks until the server is stopped, or could not be started. -/
  returned : ∀ history, library.allows history .returned = true →
    (.stop ∈ history.sinceStart ∨ .onError ∈ history.sinceStart) ∧ .returned ∉ history.sinceStart
  destroy_new : library.allows [] .destroy = true
  destroy_finished : ∀ history, History.Finished history → library.allows history .destroy = true

/-- Nothing keeps the server from starting, or its running requests from finishing, for
which `stop` waits. -/
structure Completes (library : HTTPServer) : Prop where
  onSuccess : ∀ earlier, library.allows (.start :: earlier) .onSuccess = true
  stopped : ∀ history, .stop ∈ history.sinceStart → library.allows history .stopped = true
  returned : ∀ history, .stop ∈ history.sinceStart → .returned ∉ history.sinceStart →
    library.allows history .returned = true

/-- A server that checks its calls. It cannot be stopped twice, and has to be stopped
before it is destroyed. -/
def checked (restarts : Bool) : HTTPServer where
  restarts := restarts
  allows history happening :=
    let since := history.sinceStart
    match happening with
    | .start => history.isEmpty || restarts && .returned ∈ since
    | .onSuccess | .onError => history.head? = some .start
    | .stop => .onSuccess ∈ since ∧ .stop ∉ since
    | .stopped => .stop ∈ since
    | .returned => (.stop ∈ since ∨ .onError ∈ since) ∧ .returned ∉ since
    | .destroy => history.isEmpty || .returned ∈ since

/-- The executable server is as documented. It allows the calls that the
documentation of proxygen allows, and nothing happens to it unasked. -/
theorem checked_documented (restarts : Bool) : (checked restarts).Documented where
  start_new := rfl
  start_again history hFinished := by cases hFinished <;> simp [checked, History.sinceStart]
  callback history hAllowed := by simpa [checked] using hAllowed
  stop_late history hAllowed := by
    have hBoth : .onSuccess ∈ history.sinceStart ∧ .stop ∉ history.sinceStart := by simpa [checked] using hAllowed
    exact hBoth.1
  stop_first earlier := by simp [checked, History.sinceStart]
  returned history hAllowed := by simpa [checked] using hAllowed
  destroy_new := rfl
  destroy_finished history hFinished := by cases hFinished <;> simp [checked, History.sinceStart]

theorem checked_completes (restarts : Bool) : (checked restarts).Completes where
  onSuccess earlier := by simp [checked]
  stopped history hStop := by simpa [checked] using hStop
  returned history hStop hReturned := by simp [checked, hStop, hReturned]

end HTTPServer

/-- The thread of one call of `stop`, by what it does next. It waits until proxygen's
`stop` returns, and then until it can join the main thread. -/
inductive Stopper where
  | looking | stopping | waiting | joining | clearing | fulfilling | done
  deriving DecidableEq

/-- The thread uses the server in its next step, and not only its promise. -/
def Stopper.uses : Stopper → Bool
  | .fulfilling | .done => false
  | _ => true

/-- What can go wrong. -/
inductive Failure where
  /-- `CHECK(!mainThread_)` does not hold. -/
  | check
  /-- A thread that nobody can join is joined, or one that has to be joined is destroyed. -/
  | terminate
  /-- A call that proxygen's server does not allow at this point. -/
  | disallowed
  /-- The server is used after it has been destroyed. -/
  | dangling
  deriving DecidableEq

inductive Call where
  | start | stop | destroy
  deriving DecidableEq

structure Server where
  history : History
  /-- Whether the thread can still be joined, where there is one. -/
  mainThread : Option Bool
  /-- The future of the last `start`, which gets a value or an exception. -/
  startPromise : Option Bool
  stoppers : List Stopper
  destroyed : Bool
  deriving DecidableEq

namespace Server

def create : Server := ⟨[], none, none, [], false⟩

section Steps

variable (library : HTTPServer)

def start (server : Server) : Except Failure Server :=
  if server.mainThread.isSome then .error .check
  -- `server_.bind` is a part of the start, so it is allowed where the start is
  else if library.allows server.history .start then
    .ok { server with history := .start :: server.history, mainThread := some true, startPromise := none }
  else .error .disallowed

def stop (server : Server) : Server := { server with stoppers := server.stoppers ++ [.looking] }

/-- `server_` is destroyed before `mainThread_`. -/
def destroy (server : Server) : Except Failure Server :=
  if library.allows server.history .destroy then
    if server.mainThread = some true then .error .terminate else .ok { server with destroyed := true }
  else .error .disallowed

def call (server : Server) (call : Call) : Except Failure Server :=
  if server.destroyed then .error .dangling
  else match call with
    | .start => server.start library
    | .stop => .ok server.stop
    | .destroy => server.destroy library

/-- The body of the thread of `stop`. `none` is a thread that waits, or has ended. -/
def advance (server : Server) (stopper : Stopper) : Option (Except Failure (Server × Stopper)) :=
  if server.destroyed ∧ stopper.uses then some (.error .dangling)
  else match stopper with
    | .looking => some (.ok (server, if server.mainThread.isSome then .stopping else .fulfilling))
    | .stopping =>
        if library.allows server.history .stop then
          some (.ok ({ server with history := .stop :: server.history }, .waiting))
        else some (.error .disallowed)
    | .waiting =>
        if library.allows server.history .stopped then
          some (.ok ({ server with history := .stopped :: server.history }, .joining))
        else none
    | .joining =>
        if server.mainThread = some true then
          if .returned ∈ server.history.sinceStart then
            some (.ok ({ server with mainThread := some false }, .clearing))
          else none
        else some (.error .terminate)
    | .clearing =>
        if server.mainThread = some true then some (.error .terminate)
        else some (.ok ({ server with mainThread := none }, .fulfilling))
    | .fulfilling => some (.ok (server, .done))
    | .done => none

/-- A call, something that proxygen's server does in the main thread, or a step of the
thread of the given call of `stop`. -/
inductive Event where
  | call (call : Call)
  | onSuccess
  | onError
  | returned
  | advance (k : Nat)
  deriving DecidableEq

def step (server : Server) : Event → Option (Except Failure Server)
  | .call call => some (server.call library call)
  | .onSuccess =>
      if library.allows server.history .onSuccess then
        some (.ok { server with history := .onSuccess :: server.history, startPromise := some true })
      else none
  | .onError =>
      if library.allows server.history .onError then
        some (.ok { server with history := .onError :: server.history, startPromise := some false })
      else none
  | .returned =>
      if library.allows server.history .returned then
        some (.ok { server with history := .returned :: server.history })
      else none
  | .advance k =>
      server.stoppers[k]?.bind fun stopper => (server.advance library stopper).map fun result =>
        result.map fun next => { next.1 with stoppers := server.stoppers.set k next.2 }

/-- Nothing follows a failure. -/
def process : Except Failure Server → Event → Option (Except Failure Server)
  | .ok server, event => server.step library event
  | .error _, _ => none

/-- What one step of the thread of `stop` can do. -/
inductive Advance : Server → Stopper → Server → Stopper → Prop where
  | look (server : Server) (hOpen : server.destroyed = false) :
      Advance server .looking server (if server.mainThread.isSome then .stopping else .fulfilling)
  | stop {server : Server} (hOpen : server.destroyed = false)
      (hAllowed : library.allows server.history .stop = true) :
      Advance server .stopping { server with history := .stop :: server.history } .waiting
  | wait {server : Server} (hOpen : server.destroyed = false)
      (hAllowed : library.allows server.history .stopped = true) :
      Advance server .waiting { server with history := .stopped :: server.history } .joining
  | join {server : Server} (hOpen : server.destroyed = false) (hThread : server.mainThread = some true)
      (hReturned : .returned ∈ server.history.sinceStart) :
      Advance server .joining { server with mainThread := some false } .clearing
  | clear {server : Server} (hOpen : server.destroyed = false) (hThread : server.mainThread ≠ some true) :
      Advance server .clearing { server with mainThread := none } .fulfilling
  | fulfil (server : Server) : Advance server .fulfilling server .done

/-- What one step can do that does not fail. -/
inductive Step : Server → Event → Server → Prop where
  | start {server : Server} (hOpen : server.destroyed = false) (hThread : server.mainThread = none)
      (hAllowed : library.allows server.history .start = true) :
      Step server (.call .start)
        { server with history := .start :: server.history, mainThread := some true, startPromise := none }
  | stop {server : Server} (hOpen : server.destroyed = false) : Step server (.call .stop) server.stop
  | destroy {server : Server} (hOpen : server.destroyed = false)
      (hAllowed : library.allows server.history .destroy = true) (hThread : server.mainThread ≠ some true) :
      Step server (.call .destroy) { server with destroyed := true }
  | onSuccess {server : Server} (hAllowed : library.allows server.history .onSuccess = true) :
      Step server .onSuccess { server with history := .onSuccess :: server.history, startPromise := some true }
  | onError {server : Server} (hAllowed : library.allows server.history .onError = true) :
      Step server .onError { server with history := .onError :: server.history, startPromise := some false }
  | returned {server : Server} (hAllowed : library.allows server.history .returned = true) :
      Step server .returned { server with history := .returned :: server.history }
  | advance {server next : Server} {k : Nat} {stopper after : Stopper}
      (hStopper : server.stoppers[k]? = some stopper) (hAdvance : Advance library server stopper next after) :
      Step server (.advance k) { next with stoppers := server.stoppers.set k after }

end Steps

variable {library : HTTPServer} {server next : Server}

theorem advance_cases {stopper after : Stopper} (h : server.advance library stopper = some (.ok (next, after))) :
    Advance library server stopper next after := by
  have hOpen : stopper.uses = true → server.destroyed = false := by
    intro hUses
    by_contra hDestroyed
    unfold Server.advance at h
    rw [if_pos ⟨by simpa using hDestroyed, hUses⟩] at h
    cases h
  have hHere : ¬(server.destroyed = true ∧ stopper.uses = true) := by
    intro ⟨hDestroyed, hUses⟩
    rw [hOpen hUses] at hDestroyed
    cases hDestroyed
  unfold Server.advance at h
  rw [if_neg hHere] at h
  cases stopper with
  | looking =>
      obtain ⟨rfl, rfl⟩ : server = next ∧ _ = after := by simpa using h
      exact .look server (hOpen rfl)
  | stopping =>
      dsimp only at h
      split_ifs at h with hAllowed
      · obtain ⟨rfl, rfl⟩ : _ = next ∧ _ = after := by simpa using h
        exact .stop (hOpen rfl) hAllowed
      · cases h
  | waiting =>
      obtain ⟨hAllowed, hNext⟩ := Option.ite_none_right_eq_some.mp h
      obtain ⟨rfl, rfl⟩ : _ = next ∧ _ = after := by simpa using hNext
      exact .wait (hOpen rfl) hAllowed
  | joining =>
      dsimp only at h
      split_ifs at h with hThread hReturned
      · obtain ⟨rfl, rfl⟩ : _ = next ∧ _ = after := by simpa using h
        exact .join (hOpen rfl) hThread hReturned
      · cases h
  | clearing =>
      dsimp only at h
      split_ifs at h with hThread
      · cases h
      · obtain ⟨rfl, rfl⟩ : _ = next ∧ _ = after := by simpa using h
        exact .clear (hOpen rfl) hThread
  | fulfilling =>
      obtain ⟨rfl, rfl⟩ : server = next ∧ _ = after := by simpa using h
      exact .fulfil server
  | done => cases h

/-- What a call does at once, if it does not fail. The rest is left to the threads. -/
theorem call_cases {call : Call} (h : server.call library call = .ok next) :
    Step library server (.call call) next := by
  unfold Server.call at h
  split_ifs at h with hDestroyed
  have hOpen : server.destroyed = false := by simpa using hDestroyed
  cases call with
  | start =>
      dsimp only [start] at h
      split_ifs at h with hThread hAllowed
      obtain rfl := Except.ok.inj h
      exact .start hOpen (by simpa using hThread) hAllowed
  | stop =>
      obtain rfl := Except.ok.inj h
      exact .stop hOpen
  | destroy =>
      dsimp only [destroy] at h
      split_ifs at h with hAllowed hThread
      obtain rfl := Except.ok.inj h
      exact .destroy hOpen hAllowed hThread

theorem step_cases {event : Event} (h : server.step library event = some (.ok next)) :
    Step library server event next := by
  cases event with
  | call call => exact call_cases (Option.some.inj h)
  | onSuccess =>
      obtain ⟨hAllowed, hNext⟩ := Option.ite_none_right_eq_some.mp h
      obtain rfl := Except.ok.inj (Option.some.inj hNext)
      exact .onSuccess hAllowed
  | onError =>
      obtain ⟨hAllowed, hNext⟩ := Option.ite_none_right_eq_some.mp h
      obtain rfl := Except.ok.inj (Option.some.inj hNext)
      exact .onError hAllowed
  | returned =>
      obtain ⟨hAllowed, hNext⟩ := Option.ite_none_right_eq_some.mp h
      obtain rfl := Except.ok.inj (Option.some.inj hNext)
      exact .returned hAllowed
  | advance k =>
      obtain ⟨stopper, hStopper, hRest⟩ := Option.bind_eq_some_iff.mp h
      obtain ⟨result, hAdvance, hResult⟩ := Option.map_eq_some_iff.mp hRest
      cases result with
      | error failure => cases hResult
      | ok pair =>
          obtain rfl := Except.ok.inj hResult
          exact .advance hStopper (advance_cases hAdvance)

end Server

/-- A program that makes its calls one after the other. It waits for the future of each
call, before the next one, with `get`. -/
structure Caller where
  calls : List Call
  process : Except Failure Server

namespace Caller

/-- The future of every call so far has its value. -/
def ready (server : Server) : Bool :=
  (server.history.isEmpty || server.startPromise == some true) && server.stoppers.all (· == .done)

/-- The next call, and those that are left. Where the future of `start` holds an exception,
`get` throws it, which takes the program out of the scope of its server. -/
def next (calls : List Call) (server : Server) : Option (Call × List Call) :=
  if server.startPromise = some false then some (.destroy, [])
  else match calls with
    | [] => none
    | call :: rest => if ready server then some (call, rest) else none

def step (library : HTTPServer) (caller : Caller) : Server.Event → Option Caller
  | .call call =>
      match caller.process with
      | .ok server => (next caller.calls server).bind fun (expected, rest) =>
          if call = expected then some ⟨rest, server.call library call⟩ else none
      | .error _ => none
  | event => (Server.process library caller.process event).map (⟨caller.calls, ·⟩)

/-- A caller of a new server. -/
def begin (calls : List Call) : Caller := ⟨calls, .ok .create⟩

end Caller

/-- The calls that `main` of the example program makes. -/
def SimpleServer.main : List Call := [.start, .stop, .destroy]

end Nozomi
