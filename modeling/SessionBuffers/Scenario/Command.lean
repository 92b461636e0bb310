import SessionBuffers.Job

/-!
# Commands of a scenario

A scenario is a list of steps a client takes. Steps refer to sessions, registries, handles and
guards by names, which earlier steps gave them.
-/

namespace SessionBuffers.Scenario

/-- What a step asks for. An owner is the name of a session or of a registry. -/
inductive Command where
  /-- Open a session of the step's table. -/
  | openSession (session : SessionId)
  /-- Attach a registry to the step's table. -/
  | attach (session : SessionId)
  /-- Set up a registry without a table. -/
  | attachAlone (session : SessionId) (capacity : UInt64)
  /-- End a session and tell how many buffers that released. -/
  | close (owner : String)
  /-- Let go of a session, which ends it, or of a registry. -/
  | dropOwner (owner : String)
  | teardown (owner : String)
  | sessionInfo (owner : String)
  | allocate (owner : String) (user kernel : UInt64)
  /-- Allocate so many equal buffers one after the other. -/
  | allocateMany (owner : String) (n : UInt64) (user kernel : UInt64)
  | free (owner : String) (id : BufferId)
  /-- Look up a buffer of a session in that session's table. -/
  | lookupOwn (owner : String) (id : BufferId) (mode : Mode)
  | lookup (key : Key) (mode : Mode)
  | access (handle : String) (mode : Mode)
  | copyHandle (handle : String)
  | dropHandle (handle : String)
  | handleInfo (handle : String)
  | sameStorage (handle other : String)
  | dropGuard (guard : String)
  | peek (guard : String)
  | inspectGuard (guard : String)
  /-- Edit a region under a guard; there is no edit when what was asked for is malformed. -/
  | edit (guard : String) (edit : Option (Side × Region.Edit))
  | inspect (question : Question)
  | isEmpty
  | draw
  | setNextId (id : BufferId)
  | limits
  | counters
  | resetCounters
  /-- Advance a counter and tell what it was. -/
  | advance (counter : Counter) (amount : UInt64)
  | roster (owner : String) (action : RosterAction)
  | rosterInfo (owner : String)
  deriving DecidableEq

/-- Whether a step that asks for this must name what it gets. -/
def Command.mustName : Command → Bool
  | openSession _ | attach _ | attachAlone _ _ | copyHandle _ => true
  | _ => false

/-- A step: the name for what it gets, the table it is about, and what it asks for, unless that is
malformed. -/
structure Step where
  name : Option String := none
  table : Nat := 0
  command : Option Command
  deriving DecidableEq

end SessionBuffers.Scenario
