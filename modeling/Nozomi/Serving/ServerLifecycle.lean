import Nozomi.Serving.Server

/-! In which order a server may be started, stopped and destroyed. A caller that keeps to
this order, and waits for each call, never makes it fail. It comes to its end, unless it
waits for proxygen's server. -/
namespace Nozomi

open Execution

/-- What a caller has done with its server. -/
inductive Usage where
  | unstarted | started | stopped | destroyed

namespace Usage

/-- A server that is started has to be stopped, before it is destroyed or, where this is
possible, started again. -/
def next (restarts : Bool) : Usage → Call → Option Usage
  | .unstarted, .start => some .started
  | .unstarted, .stop => some .unstarted
  | .unstarted, .destroy => some .destroyed
  | .started, .stop => some .stopped
  | .stopped, .start => if restarts then some .started else none
  | .stopped, .stop => some .stopped
  | .stopped, .destroy => some .destroyed
  | _, _ => none

def after (restarts : Bool) (usage : Usage) (calls : List Call) : Option Usage := calls.foldlM (next restarts) usage

/-- What its caller takes a server to be like, once the futures of all calls are ready. -/
def Promises : Usage → Server → Prop
  | .unstarted, server => server.history = [] ∧ server.mainThread = none
  | .started, server =>
      (∃ earlier, server.history = .onSuccess :: .start :: earlier) ∧ server.mainThread = some true
  | .stopped, server => server.history.Finished ∧ server.mainThread = none
  | .destroyed, server => server.mainThread = none ∧ server.destroyed = true

theorem after_append (restarts : Bool) (usage : Usage) (calls more : List Call) :
    usage.after restarts (calls ++ more) = (usage.after restarts calls).bind fun used => used.after restarts more := by
  rw [after, List.foldlM_append]
  rfl

end Usage

namespace Server

/-- What a server looks like under such a use, with the call of `stop` that is under way.
The number bounds the steps until all futures are ready. -/
inductive Shape : Usage → Nat → History → Option Bool → Option Bool → Bool → Option Stopper → Prop where
  | unstarted : Shape .unstarted 0 [] none none false none
  | lookingEarly : Shape .unstarted 2 [] none none false (some .looking)
  | fulfillingEarly : Shape .unstarted 1 [] none none false (some .fulfilling)
  | starting (earlier : History) : Shape .started 1 (.start :: earlier) (some true) none false none
  | serving (earlier : History) :
      Shape .started 0 (.onSuccess :: .start :: earlier) (some true) (some true) false none
  | looking (earlier : History) :
      Shape .stopped 7 (.onSuccess :: .start :: earlier) (some true) (some true) false (some .looking)
  | stopping (earlier : History) :
      Shape .stopped 6 (.onSuccess :: .start :: earlier) (some true) (some true) false (some .stopping)
  | waiting (earlier : History) :
      Shape .stopped 5 (.stop :: .onSuccess :: .start :: earlier) (some true) (some true) false (some .waiting)
  | waitingLate (earlier : History) :
      Shape .stopped 4 (.returned :: .stop :: .onSuccess :: .start :: earlier) (some true) (some true) false
        (some .waiting)
  | joining (earlier : History) :
      Shape .stopped 4 (.stopped :: .stop :: .onSuccess :: .start :: earlier) (some true) (some true) false
        (some .joining)
  | joiningLate {history : History} (hFinished : history.Finished) :
      Shape .stopped 3 history (some true) (some true) false (some .joining)
  | clearing {history : History} (hFinished : history.Finished) :
      Shape .stopped 2 history (some false) (some true) false (some .clearing)
  | fulfilling {history : History} (hFinished : history.Finished) :
      Shape .stopped 1 history none (some true) false (some .fulfilling)
  | stopped {history : History} (hFinished : history.Finished) : Shape .stopped 0 history none (some true) false none
  | lookingLate {history : History} (hFinished : history.Finished) :
      Shape .stopped 2 history none (some true) false (some .looking)
  | destroyedEarly : Shape .destroyed 0 [] none none true none
  | destroyed {history : History} (hFinished : history.Finished) :
      Shape .destroyed 0 history none (some true) true none

/-- All calls of `stop` have ended, but for the one that is under way. -/
def Phase (usage : Usage) (n : Nat) (server : Server) : Prop :=
  ∃ older current, (∀ stopper ∈ older, stopper = .done) ∧ server.stoppers = older ++ current.toList ∧
    Shape usage n server.history server.mainThread server.startPromise server.destroyed current

/-- The call of `stop` that is under way after a step of its thread. -/
def underWay : Stopper → Option Stopper
  | .done => none
  | stopper => some stopper

variable {library : HTTPServer} {server next : Server} {usage : Usage} {n : Nat}

theorem phase_create : Phase .unstarted 0 create := ⟨[], none, by simp, rfl, .unstarted⟩

/-- A step of the thread that is under way does not fail, and brings it nearer to
its end. The cases are the places of the thread, with what has happened to
proxygen's server. -/
theorem Shape.advance {stopper : Stopper} {result : Except Failure (Server × Stopper)}
    (hLibrary : library.Documented)
    (hShape : Shape usage n server.history server.mainThread server.startPromise server.destroyed (some stopper))
    (h : server.advance library stopper = some result) :
    ∃ next after m, result = .ok (next, after) ∧ m < n ∧
      Shape usage m next.history next.mainThread next.startPromise next.destroyed (underWay after) := by
  obtain ⟨history, mainThread, startPromise, stoppers, destroyed⟩ := server
  cases hShape with
  | lookingEarly =>
      obtain rfl := Option.some.inj h
      exact ⟨_, _, 1, rfl, by decide, .fulfillingEarly⟩
  | fulfillingEarly =>
      obtain rfl := Option.some.inj h
      exact ⟨_, _, 0, rfl, by decide, .unstarted⟩
  | looking earlier =>
      obtain rfl := Option.some.inj h
      exact ⟨_, _, 6, rfl, by decide, .stopping earlier⟩
  | stopping earlier =>
      have hStop : some (.ok (_, .waiting)) = some result := (if_pos (hLibrary.stop_first earlier)).symm.trans h
      obtain rfl := Option.some.inj hStop
      exact ⟨_, _, 5, rfl, by decide, .waiting earlier⟩
  | waiting earlier =>
      obtain ⟨_, hNext⟩ := Option.ite_none_right_eq_some.mp h
      obtain rfl := Option.some.inj hNext
      exact ⟨_, _, 4, rfl, by decide, .joining earlier⟩
  | waitingLate earlier =>
      obtain ⟨_, hNext⟩ := Option.ite_none_right_eq_some.mp h
      obtain rfl := Option.some.inj hNext
      exact ⟨_, _, 3, rfl, by decide, .joiningLate (.returned earlier)⟩
  | joining earlier =>
      obtain ⟨hReturned, _⟩ := Option.ite_none_right_eq_some.mp h
      simp at hReturned
  | joiningLate hFinished =>
      obtain ⟨_, hNext⟩ := Option.ite_none_right_eq_some.mp h
      obtain rfl := Option.some.inj hNext
      exact ⟨_, _, 2, rfl, by decide, .clearing hFinished⟩
  | clearing hFinished =>
      obtain rfl := Option.some.inj h
      exact ⟨_, _, 1, rfl, by decide, .fulfilling hFinished⟩
  | fulfilling hFinished =>
      obtain rfl := Option.some.inj h
      exact ⟨_, _, 0, rfl, by decide, .stopped hFinished⟩
  | lookingLate hFinished =>
      obtain rfl := Option.some.inj h
      exact ⟨_, _, 1, rfl, by decide, .fulfilling hFinished⟩

theorem advance_done (library : HTTPServer) (server : Server) : server.advance library .done = none := by
  simp [Server.advance, Stopper.uses]

/-- Only the call of `stop` that is under way takes steps. -/
theorem stopper_underWay {older : List Stopper} {current : Option Stopper} {stopper : Stopper} {k : Nat}
    (hOlder : ∀ stopper ∈ older, stopper = .done) (hNotDone : stopper ≠ .done)
    (h : (older ++ current.toList)[k]? = some stopper) : k = older.length ∧ current = some stopper := by
  rcases Nat.lt_or_ge k older.length with hBefore | hPast
  · rw [List.getElem?_append_left hBefore] at h
    exact absurd (hOlder stopper (List.mem_of_getElem? h)) hNotDone
  · rw [List.getElem?_append_right hPast] at h
    cases current with
    | none => cases h
    | some current =>
        obtain ⟨hIndex, hSame⟩ := List.getElem?_eq_some_iff.mp h
        have hFirst : k - older.length = 0 := by simpa using hIndex
        exact ⟨by omega, by simpa [hFirst] using hSame⟩

/-- The threads of earlier calls are at their end, so that only the last one matters
to the phase. -/
theorem phase_of_shape {older : List Stopper} {after : Stopper} (hOlder : ∀ stopper ∈ older, stopper = .done)
    (hStoppers : server.stoppers = older ++ [after])
    (hShape : Shape usage n server.history server.mainThread server.startPromise server.destroyed
      (underWay after)) : Phase usage n server := by
  by_cases hDone : after = .done
  · subst hDone
    refine ⟨older ++ [.done], none, ?_, by rw [hStoppers, Option.toList_none, List.append_nil], hShape⟩
    intro stopper hMem
    rcases List.mem_append.mp hMem with hMem | hMem
    · exact hOlder stopper hMem
    · exact List.mem_singleton.mp hMem
  · have hUnderWay : underWay after = some after := by
      cases after with
      | done => exact absurd rfl hDone
      | _ => rfl
    rw [hUnderWay] at hShape
    exact ⟨older, some after, hOlder, hStoppers, hShape⟩

/-- The events that are neither a call nor the failure of a start. -/
def Event.internal : Event → Bool
  | .call _ | .onError => false
  | _ => true

/-- The steps of the server's own threads do not report that a start has failed. -/
theorem Event.ne_onError {event : Event} (hInternal : event.internal = true) : event ≠ .onError := by
  rintro rfl
  cases hInternal

/-- `start` returns once `stop` has been called. -/
theorem Shape.returned (hLibrary : library.Documented) {history : History} {mainThread startPromise : Option Bool}
    {destroyed : Bool} {current : Option Stopper}
    (hShape : Shape usage n history mainThread startPromise destroyed current)
    (hAllowed : library.allows history .returned = true) :
    ∃ m < n, Shape usage m (.returned :: history) mainThread startPromise destroyed current := by
  obtain ⟨hStopped, hReturned⟩ := hLibrary.returned _ hAllowed
  cases hShape with
  | waiting earlier => exact ⟨4, by decide, .waitingLate earlier⟩
  | joining earlier => exact ⟨3, by decide, .joiningLate (.stopped earlier)⟩
  | waitingLate => simp [History.sinceStart] at hReturned
  | joiningLate hFinished | clearing hFinished | fulfilling hFinished | stopped hFinished
  | lookingLate hFinished | destroyed hFinished => exact absurd hFinished.returned_mem hReturned
  | _ => simp [History.sinceStart] at hStopped

/-- What the threads do by themselves brings the futures nearer and does not fail.
Only the thread of the last call has something left to do. -/
theorem Phase.step {event : Event} {result : Except Failure Server} (hLibrary : library.Documented)
    (hPhase : Phase usage n server) (hInternal : event.internal = true)
    (h : server.step library event = some result) :
    ∃ next m, result = .ok next ∧ m < n ∧ Phase usage m next := by
  obtain ⟨older, current, hOlder, hStoppers, hShape⟩ := hPhase
  cases event with
  | call | onError => cases hInternal
  | onSuccess =>
      obtain ⟨hAllowed, hNext⟩ := Option.ite_none_right_eq_some.mp h
      obtain rfl := Option.some.inj hNext
      have hHead := hLibrary.callback _ (.inl hAllowed)
      obtain ⟨history, mainThread, startPromise, stoppers, destroyed⟩ := server
      cases hShape with
      | starting earlier => exact ⟨_, 0, rfl, by decide, older, none, hOlder, hStoppers, .serving earlier⟩
      | joiningLate hFinished | clearing hFinished | fulfilling hFinished | stopped hFinished
      | lookingLate hFinished | destroyed hFinished => cases hFinished <;> cases hHead
      | _ => cases hHead
  | returned =>
      obtain ⟨hAllowed, hNext⟩ := Option.ite_none_right_eq_some.mp h
      obtain rfl := Option.some.inj hNext
      obtain ⟨m, hLess, hReturned⟩ := hShape.returned hLibrary hAllowed
      exact ⟨_, m, rfl, hLess, older, current, hOlder, hStoppers, hReturned⟩
  | advance k =>
      obtain ⟨stopper, hStopper, hRest⟩ := Option.bind_eq_some_iff.mp h
      obtain ⟨moved, hMoved, rfl⟩ := Option.map_eq_some_iff.mp hRest
      have hNotDone : stopper ≠ .done := by
        rintro rfl
        rw [advance_done] at hMoved
        cases hMoved
      rw [hStoppers] at hStopper
      obtain ⟨rfl, rfl⟩ := stopper_underWay hOlder hNotDone hStopper
      obtain ⟨next, after, m, rfl, hLess, hNext⟩ := hShape.advance hLibrary hMoved
      have hSet : server.stoppers.set older.length after = older ++ [after] := by
        rw [hStoppers, List.set_append_right _ _ (Nat.le_refl _), Nat.sub_self]
        rfl
      exact ⟨_, m, rfl, hLess, phase_of_shape hOlder hSet hNext⟩

/-- Something is left to proxygen's server: to call a callback of `start`, or to return
from `stop` or from `start`. -/
def Awaits (server : Server) : Prop :=
  server.history.head? = some .start ∨ .waiting ∈ server.stoppers ∨
    .joining ∈ server.stoppers ∧ .returned ∉ server.history.sinceStart

/-- Where a future is missing, some thread can go on, or it waits for proxygen's
server. The cases are what has happened since the last call. -/
theorem Phase.progress (library : HTTPServer) (hPhase : Phase usage n server) (hWaiting : 0 < n) :
    (∃ event, event.internal = true ∧ (server.step library event).isSome) ∨
      server.Awaits ∧ ¬library.Completes := by
  obtain ⟨older, current, hOlder, hStoppers, hShape⟩ := hPhase
  have hAdvance : ∀ stopper, current = some stopper → (server.advance library stopper).isSome →
      ∃ event, event.internal = true ∧ (server.step library event).isSome := by
    intro stopper hCurrent hMoves
    refine ⟨.advance older.length, rfl, ?_⟩
    have hHere : server.stoppers[older.length]? = some stopper := by
      rw [hStoppers, hCurrent, List.getElem?_append_right (Nat.le_refl _), Nat.sub_self]
      rfl
    rw [Server.step, hHere, Option.bind_some, Option.isSome_map]
    exact hMoves
  have hMem : ∀ stopper, current = some stopper → stopper ∈ server.stoppers := by
    intro stopper hCurrent
    rw [hStoppers, hCurrent]
    simp
  obtain ⟨history, mainThread, startPromise, stoppers, destroyed⟩ := server
  cases hShape with
  | starting earlier =>
      by_cases hAllowed : library.allows (.start :: earlier) .onSuccess = true
      · exact .inl ⟨.onSuccess, rfl, by rw [Server.step, if_pos hAllowed]; rfl⟩
      · exact .inr ⟨.inl rfl, fun hCompletes => hAllowed (hCompletes.onSuccess earlier)⟩
  | stopping earlier =>
      refine .inl (hAdvance _ rfl ?_)
      by_cases hAllowed : library.allows (.onSuccess :: .start :: earlier) .stop = true <;>
        simp [Server.advance, hAllowed]
  | waiting earlier =>
      by_cases hAllowed : library.allows (.stop :: .onSuccess :: .start :: earlier) .stopped = true
      · exact .inl (hAdvance _ rfl (by simp [Server.advance, hAllowed]))
      · exact .inr ⟨.inr (.inl (hMem _ rfl)), fun hCompletes =>
          hAllowed (hCompletes.stopped _ (by simp [History.sinceStart]))⟩
  | waitingLate earlier =>
      by_cases hAllowed : library.allows (.returned :: .stop :: .onSuccess :: .start :: earlier) .stopped = true
      · exact .inl (hAdvance _ rfl (by simp [Server.advance, hAllowed]))
      · exact .inr ⟨.inr (.inl (hMem _ rfl)), fun hCompletes =>
          hAllowed (hCompletes.stopped _ (by simp [History.sinceStart]))⟩
  | joining earlier =>
      by_cases hAllowed : library.allows (.stopped :: .stop :: .onSuccess :: .start :: earlier) .returned = true
      · exact .inl ⟨.returned, rfl, by rw [Server.step, if_pos hAllowed]; rfl⟩
      · exact .inr ⟨.inr (.inr ⟨hMem _ rfl, by simp [History.sinceStart]⟩), fun hCompletes =>
          hAllowed (hCompletes.returned _ (by simp [History.sinceStart]) (by simp [History.sinceStart]))⟩
  | @joiningLate history hFinished =>
      have hReturned : .returned ∈ history.sinceStart := hFinished.returned_mem
      exact .inl (hAdvance _ rfl (by simp [Server.advance, hReturned]))
  | unstarted | serving | stopped | destroyedEarly | destroyed => cases hWaiting
  | _ => exact .inl (hAdvance _ rfl rfl)

/-- The calls that a use allows do not fail, and lead to the next phase with seven
steps left at most. -/
theorem Phase.call {call : Call} {later : Usage} (hLibrary : library.Documented) (hPhase : Phase usage 0 server)
    (hNext : usage.next library.restarts call = some later) :
    ∃ next m, server.call library call = .ok next ∧ m < 8 ∧ Phase later m next := by
  obtain ⟨older, current, hOlder, hStoppers, hShape⟩ := hPhase
  obtain ⟨history, mainThread, startPromise, stoppers, destroyed⟩ := server
  have hStopping : current = none → stoppers ++ [.looking] = older ++ (some Stopper.looking).toList := by
    rintro rfl
    rw [show stoppers = older ++ none.toList from hStoppers, Option.toList_none, List.append_nil]
    rfl
  cases hShape with
  | unstarted =>
      cases call with
      | start =>
          obtain rfl := Option.some.inj hNext
          exact ⟨_, 1, if_pos hLibrary.start_new, by decide, older, none, hOlder, hStoppers, .starting []⟩
      | stop =>
          obtain rfl := Option.some.inj hNext
          exact ⟨_, 2, rfl, by decide, older, some .looking, hOlder, hStopping rfl, .lookingEarly⟩
      | destroy =>
          obtain rfl := Option.some.inj hNext
          exact ⟨_, 0, if_pos hLibrary.destroy_new, by decide, older, none, hOlder, hStoppers, .destroyedEarly⟩
  | serving earlier =>
      cases call with
      | stop =>
          obtain rfl := Option.some.inj hNext
          exact ⟨_, 7, rfl, by decide, older, some .looking, hOlder, hStopping rfl, .looking earlier⟩
      | _ => cases hNext
  | @stopped history hFinished =>
      cases call with
      | start =>
          obtain ⟨hRestarts, hUsage⟩ := Option.ite_none_right_eq_some.mp hNext
          obtain rfl := Option.some.inj hUsage
          have hAllowed : library.allows history .start = true :=
            (hLibrary.start_again history hFinished).trans hRestarts
          exact ⟨_, 1, if_pos hAllowed, by decide, older, none, hOlder, hStoppers, .starting history⟩
      | stop =>
          obtain rfl := Option.some.inj hNext
          exact ⟨_, 2, rfl, by decide, older, some .looking, hOlder, hStopping rfl, .lookingLate hFinished⟩
      | destroy =>
          obtain rfl := Option.some.inj hNext
          exact ⟨_, 0, if_pos (hLibrary.destroy_finished history hFinished), by decide, older, none, hOlder,
            hStoppers, .destroyed hFinished⟩
  | destroyedEarly | destroyed => cases call <;> cases hNext

/-- The other calls do, at a check, at the destruction of a running thread, or since
they are not allowed. -/
theorem Phase.call_fails {call : Call} (hLibrary : library.Documented) (hPhase : Phase usage 0 server)
    (hNext : usage.next library.restarts call = none) : ∃ failure, server.call library call = .error failure := by
  obtain ⟨older, current, _, _, hShape⟩ := hPhase
  obtain ⟨history, mainThread, startPromise, stoppers, destroyed⟩ := server
  cases hShape with
  | unstarted => cases call <;> cases hNext
  | serving earlier =>
      cases call with
      | start => exact ⟨.check, rfl⟩
      | stop => cases hNext
      | destroy =>
          by_cases hAllowed : library.allows (.onSuccess :: .start :: earlier) .destroy = true
          · exact ⟨.terminate, if_pos hAllowed⟩
          · exact ⟨.disallowed, if_neg hAllowed⟩
  | @stopped history hFinished =>
      cases call with
      | start =>
          have hRestarts : library.restarts = false := by simpa [Usage.next] using hNext
          have hAllowed : ¬library.allows history .start = true := by
            rw [hLibrary.start_again history hFinished, hRestarts]
            simp
          exact ⟨.disallowed, if_neg hAllowed⟩
      | _ => cases hNext
  | destroyedEarly | destroyed => exact ⟨.dangling, rfl⟩

/-- In a phase of a program without failed starts, no start has reported an error. -/
theorem Phase.startPromise (hPhase : Phase usage n server) : server.startPromise ≠ some false := by
  obtain ⟨older, current, _, _, hShape⟩ := hPhase
  obtain ⟨history, mainThread, startPromise, stoppers, destroyed⟩ := server
  cases hShape <;> simp

/-- The futures are ready when nothing is under way. -/
theorem Phase.ready_iff (hPhase : Phase usage n server) : Caller.ready server = true ↔ n = 0 := by
  obtain ⟨older, current, hOlder, hStoppers, hShape⟩ := hPhase
  have hAll : server.stoppers.all (· == .done) = (current.all (· == .done)) := by
    have hPast : older.all (· == .done) = true := by
      rw [List.all_eq_true]
      intro stopper hMem
      rw [hOlder stopper hMem, BEq.rfl]
    rw [hStoppers, List.all_append, hPast, Bool.true_and]
    cases current <;> simp
  rw [Caller.ready, hAll]
  obtain ⟨history, mainThread, startPromise, stoppers, destroyed⟩ := server
  cases hShape <;> simp

/-- The futures tell the truth. -/
theorem Phase.promises (hPhase : Phase usage 0 server) : usage.Promises server := by
  obtain ⟨older, current, _, _, hShape⟩ := hPhase
  obtain ⟨history, mainThread, startPromise, stoppers, destroyed⟩ := server
  cases hShape with
  | unstarted => exact ⟨rfl, rfl⟩
  | serving earlier => exact ⟨⟨earlier, rfl⟩, rfl⟩
  | stopped hFinished => exact ⟨hFinished, rfl⟩
  | destroyedEarly | destroyed => exact ⟨rfl, rfl⟩

end Server

namespace Caller

open Server

variable {library : HTTPServer} {caller later : Caller} {calls : List Call} {usage : Usage} {n bound : Nat}
  {event : Server.Event}

theorem step_internal (hInternal : event.internal = true) (calls : List Call) (process : Except Failure Server) :
    step library ⟨calls, process⟩ event = (Server.process library process event).map (⟨calls, ·⟩) := by
  cases event with
  | call => cases hInternal
  | _ => rfl

/-- Some of the calls have been made, and the server is what they have made of it. -/
def Fits (restarts : Bool) (calls : List Call) (bound : Nat) (caller : Caller) : Prop :=
  ∃ made usage n server, calls = made ++ caller.calls ∧ Usage.after restarts .unstarted made = some usage ∧
    caller.process = .ok server ∧ Phase usage n server ∧ bound = 8 * caller.calls.length + n

theorem fits_begin (restarts : Bool) (calls : List Call) : Fits restarts calls (8 * calls.length) (begin calls) :=
  ⟨[], .unstarted, 0, .create, rfl, rfl, rfl, phase_create, rfl⟩

/-- Every step keeps the fit and makes the bound smaller: a call uses up its eight
steps, and leaves seven of them to the threads at most. -/
theorem Fits.step (hLibrary : library.Documented)
    (hCalls : (Usage.after library.restarts .unstarted calls).isSome)
    (hFits : Fits library.restarts calls bound caller) (hError : event ≠ .onError)
    (h : caller.step library event = some later) : ∃ less < bound, Fits library.restarts calls less later := by
  obtain ⟨left, process⟩ := caller
  obtain ⟨made, usage, n, server, rfl, hMade, rfl, hPhase, rfl⟩ := hFits
  by_cases hInternal : event.internal = true
  · rw [step_internal hInternal] at h
    obtain ⟨result, hResult, rfl⟩ := Option.map_eq_some_iff.mp h
    obtain ⟨next, m, rfl, hLess, hNext⟩ := hPhase.step hLibrary hInternal hResult
    exact ⟨8 * left.length + m, Nat.add_lt_add_left hLess _, made, usage, m, next, rfl, hMade, rfl, hNext, rfl⟩
  · cases event with
    | call call =>
        obtain ⟨⟨expected, rest⟩, hExpected, hCall⟩ := Option.bind_eq_some_iff.mp h
        obtain ⟨rfl, hLater⟩ := Option.ite_none_right_eq_some.mp hCall
        obtain rfl := Option.some.inj hLater
        unfold Caller.next at hExpected
        rw [if_neg hPhase.startPromise] at hExpected
        cases left with
        | nil => cases hExpected
        | cons first left =>
            obtain ⟨hReady, hSame⟩ := Option.ite_none_right_eq_some.mp hExpected
            obtain ⟨rfl, rfl⟩ := Prod.mk.inj (Option.some.inj hSame)
            obtain rfl := hPhase.ready_iff.mp hReady
            have hSplit : made ++ first :: left = (made ++ [first]) ++ left := by simp
            obtain ⟨last, hLast⟩ := Option.isSome_iff_exists.mp hCalls
            rw [hSplit, Usage.after_append] at hLast
            obtain ⟨used, hUsed, _⟩ := Option.bind_eq_some_iff.mp hLast
            have hNextUse : usage.next library.restarts first = some used := by
              rw [Usage.after_append, hMade] at hUsed
              simpa [Usage.after] using hUsed
            obtain ⟨next, m, hNext, hLess, hPhase⟩ := hPhase.call hLibrary hNextUse
            refine ⟨8 * left.length + m, ?_, made ++ [first], used, m, next, hSplit, hUsed, hNext, hPhase, rfl⟩
            rw [List.length_cons]
            omega
    | onError => exact absurd rfl hError
    | _ => exact absurd rfl hInternal

theorem run_fits {events : List Server.Event} {final : Caller} (hLibrary : library.Documented)
    (hCalls : (Usage.after library.restarts .unstarted calls).isSome)
    (run : Run (step library) (fun _ event => event ≠ .onError) (begin calls) events final) :
    ∃ bound, Fits library.restarts calls bound final := by
  refine run.invariant (fun caller => ∃ bound, Fits library.restarts calls bound caller) ⟨_, fits_begin _ calls⟩ ?_
  intro s event t ⟨bound, hFits⟩ hError hStep
  obtain ⟨less, _, hNext⟩ := hFits.step hLibrary hCalls hError hStep
  exact ⟨less, hNext⟩

/-- The threads can bring a server to where its futures are ready, as long as proxygen's
server gets ready. -/
theorem settles {server : Server} (hLibrary : library.Documented) (hCompletes : library.Completes)
    (hPhase : Phase usage n server) (calls : List Call) :
    ∃ events next, Phase usage 0 next ∧
      Run (step library) (fun _ event => event ≠ .onError) ⟨calls, .ok server⟩ events ⟨calls, .ok next⟩ := by
  induction n using Nat.strongRecOn generalizing server with
  | ind n ih =>
      rcases Nat.eq_zero_or_pos n with rfl | hWaiting
      · exact ⟨[], server, hPhase, .nil _⟩
      · rcases hPhase.progress library hWaiting with ⟨event, hInternal, hEnabled⟩ | ⟨_, hNever⟩
        · obtain ⟨result, hResult⟩ := Option.isSome_iff_exists.mp hEnabled
          obtain ⟨next, m, rfl, hLess, hNext⟩ := hPhase.step hLibrary hInternal hResult
          obtain ⟨events, settled, hSettled, hRun⟩ := ih m hLess hNext
          have hStep : step library ⟨calls, .ok server⟩ event = some ⟨calls, .ok next⟩ := by
            rw [step_internal hInternal, Server.process, hResult, Option.map_some]
          exact ⟨event :: events, settled, hSettled, .cons (Event.ne_onError hInternal) hStep hRun⟩
        · exact absurd hCompletes hNever

theorem step_call {server : Server} (hPhase : Phase usage 0 server) (call : Call) (calls : List Call) :
    step library ⟨call :: calls, .ok server⟩ (.call call) = some ⟨calls, server.call library call⟩ := by
  have hNext : Caller.next (call :: calls) server = some (call, calls) := by
    rw [Caller.next, if_neg hPhase.startPromise, if_pos (hPhase.ready_iff.mpr rfl)]
  simp only [step, hNext, Option.bind_some, if_pos]

/-- Calls in another order fail in some run: the calls before are made one by one, and
then the one that is not allowed. -/
theorem fails_of_after {server : Server} (hLibrary : library.Documented) (hCompletes : library.Completes)
    (hPhase : Phase usage n server) (hAfter : usage.after library.restarts calls = none) :
    ∃ events rest failure, Run (step library) (fun _ event => event ≠ .onError) ⟨calls, .ok server⟩ events
      ⟨rest, .error failure⟩ := by
  induction calls generalizing usage n server with
  | nil => cases hAfter
  | cons call calls ih =>
      obtain ⟨events, settled, hSettled, hRun⟩ := settles hLibrary hCompletes hPhase (call :: calls)
      rw [Usage.after, List.foldlM_cons] at hAfter
      cases hNext : usage.next library.restarts call with
      | none =>
          obtain ⟨failure, hFails⟩ := hSettled.call_fails hLibrary hNext
          have hLast : step library ⟨call :: calls, .ok settled⟩ (.call call) = some ⟨calls, .error failure⟩ := by
            rw [step_call hSettled, hFails]
          exact ⟨events ++ [.call call], calls, failure, hRun.append (.cons (by simp) hLast (.nil _))⟩
      | some used =>
          rw [hNext] at hAfter
          obtain ⟨called, m, hCalled, _, hPhase⟩ := hSettled.call hLibrary hNext
          obtain ⟨more, rest, failure, hMore⟩ := ih hPhase hAfter
          have hHere : step library ⟨call :: calls, .ok settled⟩ (.call call) = some ⟨calls, .ok called⟩ := by
            rw [step_call hSettled, hCalled]
          exact ⟨events ++ .call call :: more, rest, failure, hRun.append (.cons (by simp) hHere hMore)⟩

/-- The uses of a server that never fail, however its threads take their steps, as long
as it can be started. -/
theorem safe_iff (hLibrary : library.Documented) (hCompletes : library.Completes) (calls : List Call) :
    (∀ events final, Run (step library) (fun _ event => event ≠ .onError) (begin calls) events final →
      ∃ server, final.process = .ok server) ↔ (Usage.after library.restarts .unstarted calls).isSome := by
  constructor
  · intro hSafe
    by_contra hNot
    obtain ⟨events, rest, failure, hRun⟩ :=
      fails_of_after hLibrary hCompletes phase_create (Option.not_isSome_iff_eq_none.mp hNot)
    obtain ⟨server, hServer⟩ := hSafe events _ hRun
    cases hServer
  · intro hAfter events final run
    obtain ⟨bound, _, _, _, server, _, _, hServer, _⟩ := run_fits hLibrary hAfter run
    exact ⟨server, hServer⟩

/-- With a server that cannot be started again, the program that starts, stops and
starts once more is not safe. -/
theorem safe_iff_example :
    ¬∀ events final, Run (step (.checked false)) (fun _ event => event ≠ .onError)
      (begin [.start, .stop, .start]) events final → ∃ server, final.process = .ok server := by
  intro hSafe
  have hAfter := (safe_iff (HTTPServer.checked_documented false) (HTTPServer.checked_completes false) _).mp hSafe
  exact absurd hAfter (by decide)

/-- The steps of such a program are bounded by its calls. Whenever the futures are ready,
the server is what the calls so far promise. Where no step is left, all calls have been made
and their futures are ready, unless proxygen's server keeps the program waiting. -/
theorem calls_complete {events : List Server.Event} {final : Caller} (hLibrary : library.Documented)
    (hCalls : (Usage.after library.restarts .unstarted calls).isSome)
    (run : Run (step library) (fun _ event => event ≠ .onError) (begin calls) events final) :
    events.length ≤ 8 * calls.length ∧ ∃ made usage server, calls = made ++ final.calls ∧
      Usage.after library.restarts .unstarted made = some usage ∧ final.process = .ok server ∧
      (ready server = true → usage.Promises server) ∧
      ((∀ event, event ≠ .onError → final.step library event = none) →
        final.calls = [] ∧ ready server = true ∨ server.Awaits ∧ ¬library.Completes) := by
  have hLength := run.length_le (fun bound caller => Fits library.restarts calls bound caller)
    (fun bound s event t hFits hError hStep => hFits.step hLibrary hCalls hError hStep) (fits_begin _ calls)
  refine ⟨hLength, ?_⟩
  obtain ⟨left, process⟩ := final
  obtain ⟨bound, made, usage, n, server, hMade, hUsage, rfl, hPhase, _⟩ := run_fits hLibrary hCalls run
  refine ⟨made, usage, server, hMade, hUsage, rfl, ?_, ?_⟩
  · intro hReady
    obtain rfl := hPhase.ready_iff.mp hReady
    exact hPhase.promises
  · intro hStuck
    rcases Nat.eq_zero_or_pos n with rfl | hWaiting
    · refine .inl ⟨?_, hPhase.ready_iff.mpr rfl⟩
      cases left with
      | nil => rfl
      | cons call left =>
          have hNone := hStuck (.call call) (by simp)
          rw [step_call hPhase] at hNone
          cases hNone
    · rcases hPhase.progress library hWaiting with ⟨event, hInternal, hEnabled⟩ | hAwaits
      · have hNone := hStuck event (Event.ne_onError hInternal)
        rw [step_internal hInternal, Option.map_eq_none_iff] at hNone
        rw [Server.process] at hNone
        rw [hNone] at hEnabled
        cases hEnabled
      · exact .inr hAwaits

/-- The calls of the example program, and the state in which the last of them leaves
the server. -/
theorem calls_complete_example : ∃ made usage, SimpleServer.main = made ++ [] ∧
    Usage.after false .unstarted made = some usage ∧
      usage.Promises ⟨[.returned, .stopped, .stop, .onSuccess, .start], none, some true, [.done], true⟩ := by
  have run : Run (step (.checked false)) (fun _ event => event ≠ .onError) (begin SimpleServer.main)
      [.call .start, .onSuccess, .call .stop, .advance 0, .advance 0, .advance 0, .returned, .advance 0,
        .advance 0, .advance 0, .call .destroy]
      ⟨[], .ok ⟨[.returned, .stopped, .stop, .onSuccess, .start], none, some true, [.done], true⟩⟩ :=
    .of_execute rfl
  obtain ⟨_, made, usage, server, hMade, hUsage, hServer, hPromises, _⟩ :=
    calls_complete (HTTPServer.checked_documented false) rfl run
  obtain rfl := Except.ok.inj hServer
  exact ⟨made, usage, hMade, hUsage, hPromises rfl⟩

end Caller

end Nozomi
