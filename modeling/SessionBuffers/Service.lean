import SessionBuffers.Job

/-!
# Calls on a shared store

A service is a store together with every call ever made on it. Any call under way may do its next
step at any time; `Service.step?` says what that step does, and has no answer while the call has
ended or has to wait. A call that ended with a guard keeps the content locked until the client
drops the guard. `Service.act?` gathers everything that can happen to a service at once, and every
history of a service is a sequence of such actions.
-/

namespace SessionBuffers

/-- A call: its job, and whether the client has dropped the guard it ended with. -/
structure Call where
  job : Job
  dropped : Bool := false
  deriving DecidableEq

/-- The guard a client holds from a call. -/
def Call.guard? (c : Call) : Option Guard :=
  match c.dropped, c.job.outcome? with
  | false, some (.guard g) => some g
  | _, _ => none

/-- A store and the calls made on it so far. -/
structure Service where
  store : Store := {}
  calls : Array Call := #[]

namespace Service

instance : Inhabited Service := ⟨{}⟩

/-- The service before any call, with a table for each of the given limits. -/
def withTables (limits : List Limits) : Service := { store := .withTables limits }

/-- The outcome of a call that has ended. -/
def outcome? (s : Service) (i : CallRef) : Option Outcome := do (← s.calls[i]?).job.outcome?

/-- The lock a call has to be given for its next step, and how. -/
def wants (s : Service) (i : CallRef) : Option (LockName × Mode) := do (← s.calls[i]?).job.wants

/-- The guard a client holds from a call. -/
def guard? (s : Service) (i : CallRef) : Option Guard := do (← s.calls[i]?).guard?

/-- The service after one more call; none when it names something that does not exist. -/
def invoke? (s : Service) (request : Request) : Option Service := do
  let job ← Job.ofRequest? s.store request
  return { s with calls := s.calls.push { job } }

/-- The service after one step of a call; none when the call has ended or has to wait. -/
def step? (supply : Supply) (s : Service) (i : CallRef) : Option Service := do
  let call ← s.calls[i]?
  match call.job.progress with
  | .ended _ => none
  | .next step =>
    let (job, store) ← step.run supply i s.store
    return { store, calls := s.calls.modify i fun call ↦ { call with job } }

/-- The service after a client has dropped the guard of a call; none when it holds none. Follows the
drop of a `SlabReadGuard` or a `SlabWriteGuard`, and `release`
(`buffer/slab_guard:64–66,109–111`). -/
def dropGuard? (s : Service) (i : CallRef) : Option Service := do
  let g ← s.guard? i
  let store ← s.store.release? (.content g.handle.storage) i
  return { store, calls := s.calls.modify i fun call ↦ { call with dropped := true } }

/-- The content under the guard of a call. Follows `deref` (`buffer/slab_guard:69–76,114–121`). -/
def content? (s : Service) (i : CallRef) : Option Content := do
  let g ← s.guard? i
  return (← s.store.storages[g.handle.storage]?).content

/-- The service after a client has edited a region under the guard of a call; none when it holds no
guard for writing, or when the edit passes the end of the region. Follows `SlabContent.user_mut` and
`kernel_mut` (`buffer/slab:55–68`), reached through `SlabWriteGuard.deref_mut`
(`buffer/slab_guard:123–128`). -/
def edit? (s : Service) (i : CallRef) (which : Side) (e : Region.Edit) : Option Service := do
  let g ← s.guard? i
  let content ← s.content? i
  let region ← (content.side which).edit? e
  guard (g.mode = .exclusive)
  return { s with store := s.store.setContent g.handle.storage (content.setSide which region) }

/-- The service after a client has swapped the contents under the guards of two calls, sizes and
all; none when it does not hold two guards for writing. What `SlabWriteGuard.deref_mut` hands out
(`buffer/slab_guard:123–128`) is the whole content, so nothing keeps a client from this. -/
def swap? (s : Service) (i j : CallRef) : Option Service := do
  let g ← s.guard? i
  let f ← s.guard? j
  let content ← s.content? i
  let other ← s.content? j
  guard (i ≠ j ∧ g.mode = .exclusive ∧ f.mode = .exclusive)
  return { s with store :=
    (s.store.setContent g.handle.storage other).setContent f.handle.storage content }

end Service

/-- What can happen to a service at once. -/
inductive Action where
  /-- A client makes a call. -/
  | invoke (request : Request)
  /-- A call under way does its next step. -/
  | step (i : CallRef)
  /-- A client drops the guard of a call. -/
  | dropGuard (i : CallRef)
  /-- A client edits a region under the guard of a call. -/
  | edit (i : CallRef) (which : Side) (e : Region.Edit)
  /-- A client swaps the contents under the guards of two calls. -/
  | swap (i j : CallRef)
  /-- The number that a table hands out next is set. -/
  | setNextId (t : TableRef) (id : BufferId)
  /-- Every counter of a table is set to zero. -/
  | resetCounters (t : TableRef)
  /-- A counter of a table is advanced by hand. -/
  | count (t : TableRef) (which : Counter) (amount : UInt64)
  deriving DecidableEq

namespace Service

/-- The service after an action; none when the action cannot be taken. -/
def act? (supply : Supply) (s : Service) : Action → Option Service
  | .invoke request => s.invoke? request
  | .step i => s.step? supply i
  | .dropGuard i => s.dropGuard? i
  | .edit i which e => s.edit? i which e
  | .swap i j => s.swap? i j
  | .setNextId t id => do
    let _ ← s.store.tables[t]?
    return { s with store := s.store.setNextId t id }
  | .resetCounters t => do
    let _ ← s.store.tables[t]?
    return { s with store := s.store.resetCounters t }
  | .count t which amount => do
    let _ ← s.store.tables[t]?
    return { s with store := s.store.count t which amount }

end Service

end SessionBuffers
