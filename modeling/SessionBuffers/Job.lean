import SessionBuffers.Operation.Access
import SessionBuffers.Operation.Allocation
import SessionBuffers.Operation.Attachment
import SessionBuffers.Operation.Drawing
import SessionBuffers.Operation.Inspection
import SessionBuffers.Operation.Lookup
import SessionBuffers.Operation.Removal
import SessionBuffers.Operation.RosterCall
import SessionBuffers.Operation.Teardown

/-!
# Requests and jobs

A request is what a client asks for. A job is a request under way: the operation with what never
changes about it, and the position it has reached.
-/

namespace SessionBuffers

/-- What a client can ask for. -/
inductive Request where
  | attach (a : Attachment)
  | allocate (t : TableRef) (r : RegistryRef) (user kernel : UInt64)
  | free (t : TableRef) (r : RegistryRef) (id : BufferId)
  | teardown (t : TableRef) (r : RegistryRef)
  /-- End a session, which tears it down unless it has ended before. -/
  | endSession (c : SessionRef)
  | lookup (t : TableRef) (key : Key) (mode : Mode)
  | access (h : Handle) (mode : Mode)
  | inspect (t : TableRef) (question : Question)
  | roster (r : RegistryRef) (action : RosterAction)
  | draw (t : TableRef)
  deriving DecidableEq

/-- A request under way. -/
inductive Job where
  | attaching (a : Attachment) (phase : Attachment.Phase)
  | allocating (a : Allocation) (phase : Allocation.Phase)
  | freeing (f : Removal) (phase : Removal.Phase)
  | tearingDown (d : Teardown) (phase : Teardown.Phase)
  | lookingUp (l : Lookup) (phase : Lookup.Phase)
  | accessing (a : Access) (phase : Access.Phase)
  | inspecting (i : Inspection) (phase : Inspection.Phase)
  | editing (c : RosterCall) (phase : RosterCall.Phase)
  | drawing (d : Drawing) (phase : Drawing.Phase)
  deriving DecidableEq

namespace Job

/-- What a job does next. -/
def progress : Job → Progress Job
  | attaching a phase => (a.progress phase).map (attaching a)
  | allocating a phase => (a.progress phase).map (allocating a)
  | freeing f phase => (f.progress phase).map (freeing f)
  | tearingDown d phase => (d.progress phase).map (tearingDown d)
  | lookingUp l phase => (l.progress phase).map (lookingUp l)
  | accessing a phase => (a.progress phase).map (accessing a)
  | inspecting i phase => (i.progress phase).map (inspecting i)
  | editing c phase => (c.progress phase).map (editing c)
  | drawing d phase => (d.progress phase).map (drawing d)

/-- The outcome of a job that has ended. -/
def outcome? (t : Job) : Option Outcome :=
  match t.progress with
  | .ended outcome => some outcome
  | .next _ => none

/-- The lock the next step of a job has to be given, and how. -/
def wants (t : Job) : Option (LockName × Mode) :=
  match t.progress with
  | .ended _ => none
  | .next step => step.wants

/-- The job a request begins as; none when the request names something that does not exist. The
session of a registry never changes, so it is looked up once. -/
def ofRequest? (s : Store) : Request → Option Job
  | .attach a =>
    match a.purpose with
    | .alone _ => some (attaching a .start)
    | .table t | .session t => s.tables[t]?.map fun _ ↦ attaching a .start
  | .allocate t r user kernel => do
    let _ ← s.tables[t]?
    let registry ← s.registries[r]?
    return allocating ⟨t, r, registry.session, user, kernel⟩ .checkLimits
  | .free t r id => do
    let _ ← s.tables[t]?
    let registry ← s.registries[r]?
    return freeing ⟨t, r, ⟨registry.session, id⟩⟩ .lockRegistry
  | .teardown t r => do
    let _ ← s.tables[t]?
    let registry ← s.registries[r]?
    return tearingDown ⟨t, r, registry.session⟩ .lockRegistry
  | .endSession c => do
    let session ← s.sessions[c]?
    let registry ← s.registries[session.registry]?
    return tearingDown ⟨session.table, session.registry, registry.session⟩ (.finish c)
  | .lookup t key mode => s.tables[t]?.map fun _ ↦ lookingUp ⟨t, key, mode⟩ .lockTable
  | .access h mode => s.storages[h.storage]?.map fun _ ↦ accessing ⟨h, mode⟩ .lockContent
  | .inspect t question => s.tables[t]?.map fun _ ↦ inspecting ⟨t, question⟩ .lockTable
  | .roster r action => s.registries[r]?.map fun registry ↦
    let c : RosterCall := ⟨r, registry.session, action⟩
    editing c c.start
  | .draw t => s.tables[t]?.map fun _ ↦ drawing ⟨t⟩ .draw

end Job

end SessionBuffers
