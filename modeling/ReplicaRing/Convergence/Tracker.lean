import ReplicaRing.Convergence.Checked
import ReplicaRing.Convergence.PhaseStore

/-!
# Tracking participants

A tracker keeps the phase of every participant in memory, in a cell that has a lock, and stores each
change before it takes effect. Calls come from many tasks at once. A call is a sequence of steps:
each step either takes one look at the table of cells, or takes the lock of one cell, or hands one
request to the store and gets its reply. Between the steps of a call those of others may come in any
order.

A cell leaves the table when the call that made it fails to store the pair, or when its ring is
forgotten. A call that was waiting for its lock by then finds it no longer live.
-/

namespace ReplicaRing

/-- The place where the phase of one participant is kept. -/
structure Cell where
  pair : Participation
  phase : Phase
  /-- The number of the call that holds the lock. -/
  holder : Option Nat
  /-- Whether the pair is looked up here. -/
  live : Bool
deriving DecidableEq

/-- Cells in the order in which they were made, and the store. -/
structure Tracker where
  cells : List Cell
  store : PhaseStore
deriving DecidableEq

namespace Tracker

def onStore (store : PhaseStore) : Tracker :=
  ⟨[], store⟩

/-- The place of the live cell of a pair. -/
def find? (t : Tracker) (pair : Participation) : Option Nat :=
  t.cells.findIdx? fun c => c.live && c.pair = pair

/-- The phase that is kept for a pair. -/
def held? (t : Tracker) (pair : Participation) : Option Phase :=
  (t.cells.find? fun c => c.live && c.pair = pair).map Cell.phase

def isLive (t : Tracker) (cell : Nat) : Bool :=
  t.cells[cell]?.any Cell.live

/-- The phase in the cell at a place, if nobody holds its lock. -/
def peek? (t : Tracker) (cell : Nat) : Option Phase :=
  (t.cells[cell]?.filter fun c => c.holder.isNone).map Cell.phase

def add (t : Tracker) (cell : Cell) : Tracker :=
  { t with cells := t.cells ++ [cell] }

def update (t : Tracker) (cell : Nat) (f : Cell → Cell) : Tracker :=
  { t with cells := t.cells.modify cell f }

/-- Gives the lock of a free cell to a call. -/
def lock? (t : Tracker) (cell call : Nat) : Option Tracker :=
  (t.peek? cell).map fun _ => t.update cell fun c => { c with holder := some call }

def unlock (t : Tracker) (cell : Nat) : Tracker :=
  t.update cell fun c => { c with holder := none }

def unlockAll (t : Tracker) (cells : List Nat) : Tracker :=
  cells.foldl unlock t

def setPhase (t : Tracker) (cell : Nat) (s : Phase) : Tracker :=
  t.update cell fun c => { c with phase := s }

/-- Takes the cells that satisfy a test out of the table. -/
def drop (t : Tracker) (p : Cell → Bool) : Tracker :=
  { t with cells := t.cells.map fun c => if p c then { c with live := false } else c }

def cellsOf (t : Tracker) (ring : RingVersion) : List Nat :=
  (t.cells.zipIdx.filter fun (c, _) => c.live && c.pair.ring = ring).map Prod.snd

end Tracker

/-! ### Requests to the store -/

/-- What a call asks of the store. -/
inductive Request
  | save (record : PhaseRecord)
  | delete (ring : RingVersion)
  | load
deriving DecidableEq

/-- What the store answers. A request that is refused has no effect. -/
inductive Reply
  | done
  | loaded (records : List PhaseRecord)
  | refused (reason : String)
deriving DecidableEq

/-! ### Calls -/

/-- What a tracker can be asked to do. -/
inductive Call
  /-- Start tracking a participant, unless it is tracked already. -/
  | begin (pair : Participation)
  | transition (pair : Participation) (target : Phase)
  | phase (pair : Participation)
  /-- Which participants have not reached a phase yet. -/
  | lagging (ring : RingVersion) (participants : List NodeId) (required : Phase)
  /-- Stop tracking a ring version. -/
  | forget (ring : RingVersion)
  /-- Take over what is stored. -/
  | recover
deriving DecidableEq

/-- What a call comes to. -/
inductive Outcome
  | begun (s : Phase)
  | moved
  | seen (s : Option Phase)
  | lagging (participants : List NodeId)
  | forgotten
  | recovered (records : Nat)
  | failed (e : Error)
deriving DecidableEq

/-- For what the phase of a participant is read. -/
inductive Question
  | phase
  /-- The participants in `rest` are still to be read, those in `found` lag behind. -/
  | lagging (ring : RingVersion) (required : Phase) (rest found : List NodeId)
deriving DecidableEq

/-- What a call does next. -/
inductive Activity
  /-- Look a pair up, or make a locked cell for it. -/
  | beginning (pair : Participation)
  /-- Read the cell that an earlier call made for the pair, once its lock is free. -/
  | joining (pair : Participation) (cell : Nat)
  /-- See whether the cell that was read is still live. -/
  | joined (pair : Participation) (cell : Nat) (seen : Phase)
  | savingNew (pair : Participation) (cell : Nat)
  /-- Take a pair that could not be stored out of the table. -/
  | withdrawing (pair : Participation) (cell : Nat) (reason : String)
  | moving (pair : Participation) (target : Phase)
  | lockingMove (pair : Participation) (target : Phase) (cell : Nat)
  /-- See whether the cell is still live and the move is allowed. -/
  | checkingMove (pair : Participation) (target : Phase) (cell : Nat)
  | savingMove (pair : Participation) (target : Phase) (cell : Nat)
  | asking (pair : Participation) (question : Question)
  /-- Read the cell of a pair, once its lock is free. -/
  | reading (pair : Participation) (cell : Nat) (question : Question)
  /-- See whether the cell that was read is still live. -/
  | confirming (pair : Participation) (cell : Nat) (seen : Phase) (question : Question)
  /-- Look up the cells of a ring that is to be forgotten. -/
  | gathering (ring : RingVersion)
  /-- Lock the cells in `waiting`; those in `locked` are locked already. -/
  | lockingAll (ring : RingVersion) (waiting locked : List Nat)
  | deleting (ring : RingVersion) (locked : List Nat)
  | clearing (ring : RingVersion) (locked : List Nat)
  | loading
  /-- Look up the pair of the next record, or make a cell for it. -/
  | merging (count : Nat) (records : List PhaseRecord)
  /-- Let a cell adopt a record, once its lock is free. -/
  | adopting (count : Nat) (record : PhaseRecord) (rest : List PhaseRecord) (cell : Nat)
  | finished (outcome : Outcome)
deriving DecidableEq

/-- The request that an activity hands to the store. -/
def Activity.request? : Activity → Option Request
  | savingNew pair _ => some (.save ⟨pair, .initial⟩)
  | savingMove pair target _ => some (.save ⟨pair, target⟩)
  | deleting ring _ => some (.delete ring)
  | loading => some .load
  | _ => none

/-- Reads the next participant, or reports those that lag behind. -/
def Activity.survey (ring : RingVersion) (required : Phase) :
    (rest found : List NodeId) → Activity
  | [], found => .finished (.lagging found)
  | who :: rest, found => .asking ⟨ring, who⟩ (.lagging ring required rest found)

/-- Goes on with a question once the phase of a pair is known; none stands for a pair that is not
tracked, which has reached nothing. -/
def Question.answer (pair : Participation) (seen : Option Phase) : Question → Activity
  | .phase => .finished (.seen seen)
  | .lagging ring required rest found =>
    .survey ring required rest
      (if seen.any required.satisfiedBy then found else found ++ [pair.participant])

def Call.start : Call → Activity
  | .begin pair => .beginning pair
  | .transition pair target => .moving pair target
  | .phase pair => .asking pair .phase
  | .lagging ring participants required => .survey ring required participants []
  | .forget ring => .gathering ring
  | .recover => .loading

/-- Whether a pair in the phase `held` takes over the stored phase: only if it is further along. -/
def Phase.adopts (held stored : Phase) : Bool :=
  held != stored && (held.canMove stored || held.satisfiedBy stored)

namespace Activity

def fail (e : Error) : Activity :=
  .finished (.failed e)

/-- The end of a call that finds a pair untracked. -/
def untracked (pair : Participation) : Activity :=
  fail (.pairNotFound pair.ring pair.participant)

/-- One step of the call with the number `me`. There is none for a call that is finished or has to
wait for a lock; `reply` is the answer of the store, and counts only where the step is a request. -/
def step? (me : Nat) (reply : Reply) (t : Tracker) : Activity → Option (Tracker × Activity)
  | beginning pair =>
    match t.find? pair with
    | some cell => some (t, joining pair cell)
    | none =>
      -- The cell is found by others from now on, but stays locked until its record is saved.
      some (t.add ⟨pair, .initial, some me, true⟩, savingNew pair t.cells.length)
  | joining pair cell => (t.peek? cell).map fun seen => (t, joined pair cell seen)
  | joined pair cell seen =>
    -- The call that made the cell may have withdrawn it: then the pair has to be looked up again.
    some (t, if t.isLive cell then .finished (.begun seen) else beginning pair)
  | savingNew pair cell =>
    match reply with
    | .done =>
      some ({ t.unlock cell with store := t.store.save ⟨pair, .initial⟩ },
        .finished (.begun .initial))
    | .refused reason => some (t, withdrawing pair cell reason)
    | .loaded _ => none
  | withdrawing pair cell reason =>
    -- The pair is taken out whichever cell is live for it by now.
    some ((t.drop fun c => c.pair = pair).unlock cell, fail (.storage reason))
  | moving pair target =>
    some (t, ((t.find? pair).map (lockingMove pair target)).getD (untracked pair))
  | lockingMove pair target cell =>
    (t.lock? cell me).map fun t => (t, checkingMove pair target cell)
  | checkingMove pair target cell =>
    t.cells[cell]?.map fun c =>
      if !c.live then (t.unlock cell, untracked pair)
      else if c.phase.canMove target then (t, savingMove pair target cell)
      else (t.unlock cell, fail (.invalidTransition c.phase target))
  | savingMove pair target cell =>
    match reply with
    | .done =>
      some ({ (t.setPhase cell target).unlock cell with store := t.store.save ⟨pair, target⟩ },
        .finished .moved)
    | .refused reason => some (t.unlock cell, fail (.storage reason))
    | .loaded _ => none
  | asking pair question =>
    some (t, ((t.find? pair).map fun cell => reading pair cell question).getD
      (question.answer pair none))
  | reading pair cell question =>
    (t.peek? cell).map fun seen => (t, confirming pair cell seen question)
  | confirming pair cell seen question =>
    some (t, question.answer pair (if t.isLive cell then some seen else none))
  | gathering ring => some (t, lockingAll ring (t.cellsOf ring) [])
  | lockingAll ring [] locked => some (t, deleting ring locked)
  | lockingAll ring (cell :: waiting) locked =>
    (t.lock? cell me).map fun t => (t, lockingAll ring waiting (cell :: locked))
  | deleting ring locked =>
    match reply with
    | .done =>
      -- The locks are kept until the cells have left the table.
      some ({ t with store := t.store.eraseRing ring }, clearing ring locked)
    | .refused reason => some (t.unlockAll locked, fail (.storage reason))
    | .loaded _ => none
  | clearing ring locked =>
    some ((t.drop fun c => c.pair.ring = ring).unlockAll locked, .finished .forgotten)
  | loading =>
    match reply with
    | .loaded records => some (t, merging records.length records)
    | .refused reason => some (t, fail (.storage reason))
    | .done => none
  | merging count [] => some (t, .finished (.recovered count))
  | merging count (record :: rest) =>
    match t.find? record.pair with
    | some cell => some (t, adopting count record rest cell)
    | none => some (t.add ⟨record.pair, record.phase, none, true⟩, merging count rest)
  | adopting count record rest cell =>
    -- The record may be older than what the cell holds by now.
    (t.peek? cell).map fun held =>
      (if held.adopts record.phase then t.setPhase cell record.phase else t, merging count rest)
  | finished _ => none

end Activity

end ReplicaRing
