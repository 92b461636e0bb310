import SessionBuffers.Outcome

/-!
# Allocating a buffer

Limits are checked and storage is reserved before any lock is taken. The fresh content is locked
before it can be found, then the registry and then the table. Room for the key is reserved in the
roster before a number is drawn, so that recording the key cannot fail. The table is given back
before the key is recorded and the content last, so a lookup that finds the key too early waits for
the content. If there is no room, or if the number drawn is still in use, everything is given back
and the content is dropped.
-/

namespace SessionBuffers

/-- An allocation: who asks, and how large the two regions are to be. The arguments of
`BufferTable.allocate` (`buffer/buffer_table:241–246`). -/
structure Allocation where
  table : TableRef
  registry : RegistryRef
  session : SessionId
  user : UInt64
  kernel : UInt64
  deriving DecidableEq

namespace Allocation

/-- Where an allocation stands, named for what it does next. Each position stands for one line of
`allocate_internal` (`buffer/buffer_table:352–387`), of `allocate` (`buffer/buffer_table:247–254`),
or for the end of a scope in which a lock is held. -/
inductive Phase where
  | checkLimits
  | provide
  | lockContent (b : StorageRef)
  | lockRegistry (b : StorageRef)
  | lockTable (b : StorageRef)
  | reserve (b : StorageRef)
  | draw (b : StorageRef)
  | insert (b : StorageRef) (key : Key)
  | unlockTable (b : StorageRef) (key : Key)
  | enlist (b : StorageRef) (key : Key)
  | unlockRegistry (b : StorageRef) (key : Key)
  | unlockContent (b : StorageRef) (key : Key)
  | count (b : StorageRef) (key : Key)
  | report (b : StorageRef) (key : Key)
  /-- There was no room, or the key was in use: the registry is given back first. -/
  | abandonRegistry (b : StorageRef) (why : Failure)
  | abandonTable (b : StorageRef) (why : Failure)
  | abandonContent (b : StorageRef) (why : Failure)
  | countFailure (why : Failure)
  | reportFailure (why : Failure)
  | ended (outcome : Outcome)
  deriving DecidableEq

/-- How an allocation that cannot be met is refused. As in `check_limits`
(`buffer/buffer_table:392–395`), `SlabContent.try_new` (`buffer/slab:32–35`) and `allocate_internal`
(`buffer/buffer_table:366–369`). -/
def unmet (a : Allocation) : Failure := .allocationFailed a.user a.kernel

/-- What an allocation does next. Follows `BufferTable.allocate` (`buffer/buffer_table:241–255`) and
`allocate_internal` (`buffer/buffer_table:352–387`) and `check_limits`
(`buffer/buffer_table:390–398`). -/
def progress (a : Allocation) : Phase → Progress Phase
  | .checkLimits => .next <| .consult a.table fun limits ↦
    if limits.permits a.user a.kernel then .provide else .countFailure a.unmet
  | .provide => .next <| .provide a.user a.kernel .lockContent (.countFailure a.unmet)
  | .lockContent b => .next <| .acquire (.content b) .exclusive (.lockRegistry b)
  | .lockRegistry b => .next <| .acquire (.registry a.registry) .exclusive (.lockTable b)
  | .lockTable b => .next <| .acquire (.table a.table) .exclusive (.reserve b)
  | .reserve b =>
    .next <| .reserve a.registry a.user a.kernel (.draw b) (.abandonRegistry b a.unmet)
  | .draw b => .next <| .draw a.table fun id ↦ .insert b ⟨a.session, id⟩
  | .insert b key =>
    .next <| .insert a.table key b (.unlockTable b key) (.abandonRegistry b (.duplicateKey key))
  | .unlockTable b key => .next <| .release (.table a.table) (.enlist b key)
  | .enlist b key => .next <| .add a.registry key (.unlockRegistry b key)
  | .unlockRegistry b key => .next <| .release (.registry a.registry) (.unlockContent b key)
  | .unlockContent b key => .next <| .release (.content b) (.count b key)
  | .count b key => .next <| .count a.table .allocations 1 (.report b key)
  | .report b key => .next <| .log (.allocated key a.user a.kernel) (.ended (.handle ⟨key, b⟩))
  | .abandonRegistry b why => .next <| .release (.registry a.registry) (.abandonTable b why)
  | .abandonTable b why => .next <| .release (.table a.table) (.abandonContent b why)
  | .abandonContent b why => .next <| .release (.content b) (.countFailure why)
  | .countFailure why => .next <| .count a.table .allocationFailures 1 (.reportFailure why)
  | .reportFailure why =>
    .next <| .log (.allocateFailed a.session a.user a.kernel why) (.ended (.refused why))
  | .ended outcome => .ended outcome

end Allocation

end SessionBuffers
