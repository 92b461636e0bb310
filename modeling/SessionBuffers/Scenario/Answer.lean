import SessionBuffers.Outcome

/-!
# Answers of a scenario

What a step is answered with, and what is told about the tables after it.
-/

namespace SessionBuffers

/-- How a region is shown: a short one byte by byte, a longer one by what it adds up to. -/
inductive Region.View where
  | bytes (bs : List UInt8)
  | digest (size nonzero : Nat) (weight : UInt32)
  deriving DecidableEq

/-- Up to 32 bytes are shown one by one. -/
def Region.view (r : Region) : Region.View :=
  if r.size ≤ 32 then .bytes r.toList else .digest r.size r.nonzero r.weight

namespace Scenario

/-- A mistake in a step itself, found before or without any call. -/
inductive Fault where
  | badInput
  | noSuchName
  | nameInUse
  /-- A session where a registry is needed, or the reverse. -/
  | wrongKind
  /-- The session is still used by a step that waits. -/
  | inUse
  /-- A guard for reading cannot write. -/
  | readOnly
  | outOfBounds
  deriving DecidableEq

/-- What a step is told when it succeeds. -/
inductive Value where
  | nothing
  | number (n : Nat)
  | flag (b : Bool)
  | text (s : String)
  | keys (ks : List Key)
  | handle (h : Handle)
  | content (key : Key) (user kernel : Region.View) (released : Bool)
  | tally (succeeded failed : Nat) (first last : Option BufferId)
  | sessionInfo (session : SessionId) (ids : List BufferId) (text : String) (t : TableRef)
  | rosterInfo (session : SessionId) (keys : List Key)
  | handleInfo (key : Key) (locked alone : Bool) (text : String)
  | limits (l : Limits)
  | counters (c : Counters)

/-- The content of a buffer as it is shown. -/
def Value.ofContent (key : Key) (c : Content) : Value :=
  .content key c.user.view c.kernel.view c.released

/-- What a step is answered with. -/
inductive Answer where
  | ok (value : Value)
  | refused (why : Failure)
  | misuse
  | fault (f : Fault)
  /-- The step has to wait. -/
  | blocked

/-- The answer to a step, with the events its calls logged. -/
structure Reply where
  answer : Answer
  log : List Event := []

/-- What is told about the tables: their counters, and their sizes unless a step is waiting. -/
structure Survey where
  counters : List Counters
  sizes : Option (List Nat)

/-- All that is told after a step: its reply, the tables, and the replies of steps that had to
wait and have ended meanwhile. -/
structure Report where
  reply : Reply
  survey : Survey
  resumed : List (Nat × Reply)

/-- All that is told about a scenario: its steps, then the state with every guard dropped, then
the state with everything dropped and the events of that. -/
structure Record where
  steps : List Report
  guardsDropped : Survey
  resumed : List (Nat × Reply)
  allDropped : Survey
  log : List Event

end Scenario

end SessionBuffers
