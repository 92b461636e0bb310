import SessionBuffers.Content
import SessionBuffers.Counters
import SessionBuffers.Event
import SessionBuffers.Index
import SessionBuffers.Limits
import SessionBuffers.Lock
import SessionBuffers.Roster

/-!
# The shared store

Everything that calls have in common: tables, registries, storage, sessions and the log. Each
table, registry and storage has a lock of its own. The store itself lets anyone change anything;
which lock an operation takes before which change is said by the operations.
-/

namespace SessionBuffers

/-- A table, by the order in which tables were set up. -/
abbrev TableRef := Nat

/-- A registry, by the order in which registries were set up. -/
abbrev RegistryRef := Nat

/-- A session, by the order in which sessions were opened. -/
abbrev SessionRef := Nat

/-- The buffers of all sessions, the next number to hand out, and what has been counted. Follows
`BufferTable` (`buffer/buffer_table:131–136`). -/
structure Table where
  limits : Limits
  index : Index := ∅
  lock : Lock := .free
  nextId : BufferId := ⟨0⟩
  counters : Counters := {}

instance : Inhabited Table := ⟨{ limits := {} }⟩

/-- The keys one session owns, behind a lock that is only taken alone. Follows `SessionRegistry`
(`buffer/session_registry:60–63`). -/
structure Registry where
  session : SessionId
  roster : Roster := {}
  lock : Lock := .free
  deriving Inhabited

/-- The content of one buffer behind its lock. What handles share: the locked `SlabContent`
(`buffer/slab:115`). -/
structure Storage where
  content : Content
  lock : Lock := .free
  deriving Inhabited

/-- A client's session: the table it works on, its registry, and whether it has ended. Follows
`Session` (`buffer/session:33–37`). -/
structure Session where
  table : TableRef
  registry : RegistryRef
  ended : Bool := false
  deriving Inhabited

/-- A buffer as its allocation hands it out: the key, and the storage behind it. Follows
`BufferSlab` (`buffer/slab:113–116`). -/
structure Handle where
  key : Key
  storage : StorageRef
  deriving DecidableEq, Inhabited

/-- Whether two handles stem from one allocation. Follows `BufferSlab.same_storage`
(`buffer/slab:168–170`). -/
def Handle.sameStorage (h g : Handle) : Bool := h.storage == g.storage

/-- The locks of a store. -/
inductive LockName where
  | registry (r : RegistryRef)
  | table (t : TableRef)
  | content (b : StorageRef)
  deriving DecidableEq

/-- What calls share. -/
structure Store where
  tables : Array Table := #[]
  registries : Array Registry := #[]
  storages : Array Storage := #[]
  sessions : Array Session := #[]
  /-- The events so far, each with the call that logged it. -/
  log : Array (CallRef × Event) := #[]
  deriving Inhabited

namespace Store

/-- The store before any call, with a table for each of the given limits. -/
def withTables (limits : List Limits) : Store :=
  { tables := (limits.map fun l ↦ { limits := l : Table }).toArray }

/-- The store with one table changed. -/
def modifyTable (s : Store) (t : TableRef) (f : Table → Table) : Store :=
  { s with tables := s.tables.modify t f }

/-- The store with one registry changed. -/
def modifyRegistry (s : Store) (r : RegistryRef) (f : Registry → Registry) : Store :=
  { s with registries := s.registries.modify r f }

/-- The store with one storage changed. -/
def modifyStorage (s : Store) (b : StorageRef) (f : Storage → Storage) : Store :=
  { s with storages := s.storages.modify b f }

/-- The store with one session marked as ended. -/
def endSession (s : Store) (c : SessionRef) : Store :=
  { s with sessions := s.sessions.modify c fun session ↦ { session with ended := true } }

/-- The lock of a name. -/
def lock? (s : Store) : LockName → Option Lock
  | .registry r => s.registries[r]?.map Registry.lock
  | .table t => s.tables[t]?.map Table.lock
  | .content b => s.storages[b]?.map Storage.lock

/-- The store with one lock replaced. -/
def setLock (s : Store) (name : LockName) (l : Lock) : Store :=
  match name with
  | .registry r => s.modifyRegistry r fun registry ↦ { registry with lock := l }
  | .table t => s.modifyTable t fun table ↦ { table with lock := l }
  | .content b => s.modifyStorage b fun storage ↦ { storage with lock := l }

/-- The store with one lock taken by one more call, if its holders leave room. -/
def acquire? (s : Store) (name : LockName) (who : CallRef) (mode : Mode) : Option Store := do
  let l ← (← s.lock? name).acquire? who mode
  return s.setLock name l

/-- The store with one lock given back by a call. -/
def release? (s : Store) (name : LockName) (who : CallRef) : Option Store := do
  let l ← s.lock? name
  return s.setLock name (l.release who)

/-- The store with a counter of a table advanced. -/
def count (s : Store) (t : TableRef) (which : Counter) (amount : UInt64) : Store :=
  s.modifyTable t fun table ↦ { table with counters := table.counters.add which amount }

/-- The store with every counter of a table at zero. Follows `TableStats.reset`
(`buffer/stats:76–90`). -/
def resetCounters (s : Store) (t : TableRef) : Store :=
  s.modifyTable t fun table ↦ { table with counters := {} }

/-- The store with another number to hand out next. -/
def setNextId (s : Store) (t : TableRef) (id : BufferId) : Store :=
  s.modifyTable t fun table ↦ { table with nextId := id }

/-- The store with the content of a buffer replaced. -/
def setContent (s : Store) (b : StorageRef) (c : Content) : Store :=
  s.modifyStorage b fun storage ↦ { storage with content := c }
end Store

end SessionBuffers
