import ReplicaRing.Convergence.Tracker

/-!
# Calls in flight

A session is a tracker together with the calls that were made of it, each as far as it has come. A
call is known by its number. `perform` makes one call alone and runs it to its end; `overlap` makes
a second call while the first one waits for the store.
-/

namespace ReplicaRing

/-- A tracker and the calls made of it. -/
structure Session where
  tracker : Tracker
  activities : List Activity

namespace Session

def of (t : Tracker) : Session :=
  ⟨t, []⟩

def start (s : Session) (call : Call) : Session :=
  { s with activities := s.activities ++ [call.start] }

/-- One step of the call with a number, if it can take one. -/
def step? (s : Session) (call : Nat) (reply : Reply) : Option Session :=
  s.activities[call]?.bind fun activity =>
    (activity.step? call reply s.tracker).map fun (tracker, next) =>
      ⟨tracker, s.activities.set call next⟩

/-- What the call with a number came to, if it is finished. -/
def outcome? (s : Session) (call : Nat) : Option Outcome :=
  s.activities[call]?.bind fun
    | .finished outcome => some outcome
    | _ => none

end Session

namespace Tracker

/-- How the store answers a request, where `faults` gives a reason for each request that it
refuses. -/
def answer (t : Tracker) (faults : Request → Option String) (request : Request) : Reply :=
  match faults request with
  | some reason => .refused reason
  | none =>
    match request with
    | .load => .loaded t.store.records
    | _ => .done

/-- The reply to what an activity asks of the store, if anything. -/
def reply (t : Tracker) (faults : Request → Option String) (activity : Activity) : Reply :=
  (activity.request?.map (t.answer faults)).getD .done

/-- More steps than a call that is alone can take. -/
def stepLimit (t : Tracker) : Call → Nat
  | .lagging _ participants _ => 3 * participants.length + 4
  | _ => t.cells.length + 2 * t.store.records.length + 8

end Tracker

namespace Session

/-- Runs the call with a number until it is finished, has to wait, or reaches an activity that
satisfies `pauses`; at most a given number of steps. -/
def advance (faults : Request → Option String) (pauses : Activity → Bool) (call : Nat) :
    Nat → Session → Session
  | 0, s => s
  | steps + 1, s =>
    match s.activities[call]? with
    | none => s
    | some activity =>
      if pauses activity then s
      else
        match s.step? call (s.tracker.reply faults activity) with
        | some next => next.advance faults pauses call steps
        | none => s

end Session

namespace Tracker

/-- Makes a call and runs it to its end. There is no end if a call before it still holds a lock. -/
def perform (t : Tracker) (faults : Request → Option String) (call : Call) :
    Option (Tracker × Outcome) :=
  let s := ((Session.of t).start call).advance faults (fun _ => false) 0 (t.stepLimit call)
  (s.outcome? 0).map fun outcome => (s.tracker, outcome)

/-- Whether an activity waits for a record to be saved. -/
def waitsForSave (activity : Activity) : Bool :=
  activity.request?.any fun
    | .save _ => true
    | _ => false

/-- Makes a second call while the first one waits for its record to be saved, lets the second go as
far as it can, and then runs the first and the second to their ends. The save of the first call is
answered by `firstFaults`. A first call that saves nothing is run to its end before the second
starts. -/
def overlap (t : Tracker) (faults firstFaults : Request → Option String) (first second : Call) :
    Option (Tracker × Outcome × Outcome) :=
  let limit := t.stepLimit first + t.stepLimit second
  let never := fun _ => false
  let s := ((Session.of t).start first).advance faults waitsForSave 0 limit
  let s := (s.start second).advance faults never 1 limit
  -- The second call is finished or waits for a lock that the first one holds.
  let s := s.advance firstFaults never 0 limit
  let s := s.advance faults never 1 limit
  match s.outcome? 0, s.outcome? 1 with
  | some a, some b => some (s.tracker, a, b)
  | _, _ => none

/-- Whether a participant in a phase still takes initiatives. -/
def initiates (s : Option Phase) : Bool :=
  s.any fun s => !s.isFinal && !s.isPassive

end Tracker

end ReplicaRing
