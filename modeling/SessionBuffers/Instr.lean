import SessionBuffers.Store
import SessionBuffers.Supply

/-!
# Single steps

The steps operations are made of. An `Instr σ` is one change or one reading of the shared store,
with the position `σ` at which the operation goes on for every answer it may get. Taking or
giving back a lock, changing an index or a roster, giving up content, drawing a number, advancing
a counter and logging are each one step, so whatever happens between two of them is seen by the
second.
-/

namespace SessionBuffers

/-- One step of an operation whose positions are `σ`. -/
inductive Instr (σ : Type) where
  /-- Read the limits of a table, which never change. Follows the reads of `TableConfig` in
  `check_limits` (`buffer/buffer_table:391`) and `attach_session` (`buffer/buffer_table:187`). -/
  | consult (t : TableRef) (next : Limits → σ)
  /-- Reserve zeroed storage for a buffer. Follows `SlabContent.try_new` (`buffer/slab:31–46`) and
  `zeroed` (`buffer/slab:95–100`). -/
  | provide (user kernel : UInt64) (given : StorageRef → σ) (refused : σ)
  /-- Reserve a registry with an empty roster. Follows `SessionRegistry.attach`
  (`buffer/session_registry:70–83`). -/
  | enroll (session : SessionId) (capacity : UInt64) (given : RegistryRef → σ) (refused : σ)
  /-- Make room in a roster for the key of one more buffer. Follows `SessionList.reserve_one`
  (`buffer/session_registry:27–29`). -/
  | reserve (r : RegistryRef) (user kernel : UInt64) (given refused : σ)
  /-- Set up a session around a registry. Follows `Session.new` (`buffer/session:40–46`). -/
  | open (t : TableRef) (r : RegistryRef) (next : SessionRef → σ)
  /-- Mark a session as ended, and tell whether it had ended before. Follows the flag `closed` in
  `Session.teardown` (`buffer/session:106–109`). -/
  | finish (c : SessionRef) (first again : σ)
  /-- Take a lock; there is no step while its holders leave no room. Follows the calls of `lock`,
  `read` and `write` (`buffer/buffer_table:347–348,362,403`, `buffer/slab:188,192,197`). -/
  | acquire (name : LockName) (mode : Mode) (next : σ)
  /-- Take a lock, or go on without it when its holders leave no room. Follows the call of
  `try_lock` in `SessionRegistry.try_contains` (`buffer/session_registry:108`). -/
  | tryAcquire (name : LockName) (mode : Mode) (taken busy : σ)
  /-- Give a lock back. Stands for the drop of what `lock`, `read` and `write` return. -/
  | release (name : LockName) (next : σ)
  /-- Draw the next number of a table. Follows `BufferTable.next_id`
  (`buffer/buffer_table:163–165`). -/
  | draw (t : TableRef) (next : BufferId → σ)
  /-- Put a key into an index, unless it is there. Follows `BufferIndex.insert`
  (`buffer/buffer_table:50–60`). -/
  | insert (t : TableRef) (key : Key) (b : StorageRef) (fresh present : σ)
  /-- Take a key out of an index. Follows `BufferIndex.erase` (`buffer/buffer_table:66–68`). -/
  | erase (t : TableRef) (key : Key) (next : σ)
  /-- Read an index. Follows `BufferIndex.find`, `session_keys` and `len`
  (`buffer/buffer_table:62–64,70–79`). -/
  | readIndex (t : TableRef) (next : Index → σ)
  /-- Read a roster. Follows `SessionList.contains` and `len`
  (`buffer/session_registry:39–41,49–51`) and `SessionRegistry.keys`
  (`buffer/session_registry:118–119`). -/
  | readRoster (r : RegistryRef) (next : Roster → σ)
  /-- Record a key in a roster. Follows `SessionList.add` (`buffer/session_registry:31–33`). -/
  | add (r : RegistryRef) (key : Key) (next : σ)
  /-- Forget a key of a roster, and tell whether it was recorded. Follows `SessionList.remove`
  (`buffer/session_registry:35–37`). -/
  | remove (r : RegistryRef) (key : Key) (next : Bool → σ)
  /-- Forget all keys of a roster, and list them in ascending order. Follows `SessionList.drain`
  (`buffer/session_registry:43–47`). -/
  | drain (r : RegistryRef) (next : List Key → σ)
  /-- Mark a roster as closed, and tell whether this was the first time. Follows
  `SessionList.mark_closed` (`buffer/session_registry:22–24`). -/
  | close (r : RegistryRef) (next : Bool → σ)
  /-- Read content. Follows `SlabContent.is_released` (`buffer/slab:72–74`). -/
  | readContent (b : StorageRef) (next : Content → σ)
  /-- Give up content: empty both regions and mark it as released. Follows `SlabContent.release`
  (`buffer/slab:78–82`). -/
  | dispose (b : StorageRef) (next : σ)
  /-- Advance a counter of a table. Follows `TableStats.bump` (`buffer/stats:93–95`) and
  `fetch_add` in `teardown_session` (`buffer/buffer_table:217–219`). -/
  | count (t : TableRef) (which : Counter) (amount : UInt64) (next : σ)
  /-- Log an event, as in `buffer/buffer_table:189,205,223,250–253,275,291,385,407`. -/
  | log (event : Event) (next : σ)

namespace Instr

/-- The same step with every position to go on from renamed. -/
def map {σ τ : Type} (f : σ → τ) : Instr σ → Instr τ
  | consult t next => consult t (f ∘ next)
  | provide user kernel given refused => provide user kernel (f ∘ given) (f refused)
  | enroll session capacity given refused => enroll session capacity (f ∘ given) (f refused)
  | reserve r user kernel given refused => reserve r user kernel (f given) (f refused)
  | .open t r next => .open t r (f ∘ next)
  | finish c first again => finish c (f first) (f again)
  | acquire name mode next => acquire name mode (f next)
  | tryAcquire name mode taken busy => tryAcquire name mode (f taken) (f busy)
  | release name next => release name (f next)
  | draw t next => draw t (f ∘ next)
  | insert t key b fresh present => insert t key b (f fresh) (f present)
  | erase t key next => erase t key (f next)
  | readIndex t next => readIndex t (f ∘ next)
  | readRoster r next => readRoster r (f ∘ next)
  | add r key next => add r key (f next)
  | remove r key next => remove r key (f ∘ next)
  | drain r next => drain r (f ∘ next)
  | close r next => close r (f ∘ next)
  | readContent b next => readContent b (f ∘ next)
  | dispose b next => dispose b (f next)
  | count t which amount next => count t which amount (f next)
  | log event next => log event (f next)

/-- The lock a step has to be given, and how. -/
def wants {σ : Type} : Instr σ → Option (LockName × Mode)
  | acquire name mode _ => some (name, mode)
  | _ => none

/-- What a step of call `who` does to the store, and where the call goes on; none while the step
has to wait, or when it names something that does not exist. -/
def run {σ : Type} (supply : Supply) (who : CallRef) (s : Store) : Instr σ → Option (σ × Store)
  | consult t next => do
    let table ← s.tables[t]?
    return (next table.limits, s)
  | provide user kernel given refused =>
    if supply.regions user kernel then
      some (given s.storages.size,
        { s with storages := s.storages.push { content := .zeroed user kernel } })
    else some (refused, s)
  | enroll session capacity given refused =>
    if supply.roster capacity then
      some (given s.registries.size, { s with registries := s.registries.push { session } })
    else some (refused, s)
  | reserve r user kernel given refused => do
    let _ ← s.registries[r]?
    return (if supply.slot user kernel then given else refused, s)
  | .open t r next =>
    some (next s.sessions.size,
      { s with sessions := s.sessions.push { table := t, registry := r } })
  | finish c first again => do
    let session ← s.sessions[c]?
    return if session.ended then (again, s) else (first, s.endSession c)
  | acquire name mode next => do
    let s ← s.acquire? name who mode
    return (next, s)
  | tryAcquire name mode taken busy => do
    let l ← s.lock? name
    return match l.acquire? who mode with
      | some l => (taken, s.setLock name l)
      | none => (busy, s)
  | release name next => do
    let s ← s.release? name who
    return (next, s)
  | draw t next => do
    let table ← s.tables[t]?
    return (next table.nextId, s.setNextId t ⟨table.nextId.number + 1⟩)
  | insert t key b fresh present => do
    let table ← s.tables[t]?
    return if table.index.contains key then (present, s)
      else (fresh, s.modifyTable t fun table ↦ { table with index := table.index.insert key b })
  | erase t key next => do
    let _ ← s.tables[t]?
    return (next, s.modifyTable t fun table ↦ { table with index := table.index.erase key })
  | readIndex t next => do
    let table ← s.tables[t]?
    return (next table.index, s)
  | readRoster r next => do
    let registry ← s.registries[r]?
    return (next registry.roster, s)
  | add r key next => do
    let _ ← s.registries[r]?
    return (next, s.modifyRegistry r fun registry ↦
      { registry with roster := registry.roster.add key })
  | remove r key next => do
    let registry ← s.registries[r]?
    return (next (registry.roster.contains key), s.modifyRegistry r fun registry ↦
      { registry with roster := registry.roster.remove key })
  | drain r next => do
    let registry ← s.registries[r]?
    return (next registry.roster.toList, s.modifyRegistry r fun registry ↦
      { registry with roster := registry.roster.drained })
  | close r next => do
    let registry ← s.registries[r]?
    return (next (!registry.roster.closed), s.modifyRegistry r fun registry ↦
      { registry with roster := registry.roster.close })
  | readContent b next => do
    let storage ← s.storages[b]?
    return (next storage.content, s)
  | dispose b next => do
    let _ ← s.storages[b]?
    return (next, s.modifyStorage b fun storage ↦ { storage with content := .gone })
  | count t which amount next => do
    let _ ← s.tables[t]?
    return (next, s.count t which amount)
  | log event next => some (next, { s with log := s.log.push (who, event) })

end Instr

end SessionBuffers
