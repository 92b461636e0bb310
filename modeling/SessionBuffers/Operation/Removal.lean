import SessionBuffers.Outcome

/-!
# Freeing a buffer

A free holds the registry and the table while it looks for the buffer. It goes on only if the
table has the key and the roster lists it; then it waits for everyone who uses the content, takes
the key out of both, gives both back, and only then gives up the content it still holds.
-/

namespace SessionBuffers

/-- A free: who asks, and for which key. The arguments of `BufferTable.free`
(`buffer/buffer_table:265`), with the key made of them. -/
structure Removal where
  table : TableRef
  registry : RegistryRef
  key : Key
  deriving DecidableEq

namespace Removal

/-- Where a free stands, named for what it does next. Each position stands for one line of
`BufferTable.free` (`buffer/buffer_table:265–293`) or of `lock_session`
(`buffer/buffer_table:346–350`). -/
inductive Phase where
  | lockRegistry
  | lockTable
  | find
  /-- The table has the key; the roster is asked. -/
  | checkOwner (b : StorageRef)
  | lockContent (b : StorageRef)
  | erase (b : StorageRef)
  | forget (b : StorageRef)
  | unlockRegistry (b : StorageRef)
  | unlockTable (b : StorageRef)
  | dispose (b : StorageRef)
  | unlockContent (b : StorageRef)
  | count
  | report
  /-- There is nothing to free; `inTable` tells whether the table has the key all the same. -/
  | missRegistry (inTable : Bool)
  | missTable (inTable : Bool)
  | countMiss (inTable : Bool)
  | reportMiss (inTable : Bool)
  | ended (outcome : Outcome)
  deriving DecidableEq

/-- What a free does next. Follows `BufferTable.free` (`buffer/buffer_table:265–293`). -/
def progress (f : Removal) : Phase → Progress Phase
  | .lockRegistry => .next <| .acquire (.registry f.registry) .exclusive .lockTable
  | .lockTable => .next <| .acquire (.table f.table) .exclusive .find
  | .find => .next <| .readIndex f.table fun index ↦
    match index[f.key]? with
    | some b => .checkOwner b
    | none => .missRegistry false
  | .checkOwner b => .next <| .readRoster f.registry fun roster ↦
    if roster.contains f.key then .lockContent b else .missRegistry true
  | .lockContent b => .next <| .acquire (.content b) .exclusive (.erase b)
  | .erase b => .next <| .erase f.table f.key (.forget b)
  | .forget b => .next <| .remove f.registry f.key fun _ ↦ .unlockRegistry b
  | .unlockRegistry b => .next <| .release (.registry f.registry) (.unlockTable b)
  | .unlockTable b => .next <| .release (.table f.table) (.dispose b)
  | .dispose b => .next <| .dispose b (.unlockContent b)
  | .unlockContent b => .next <| .release (.content b) .count
  | .count => .next <| .count f.table .frees 1 .report
  | .report => .next <| .log (.freed f.key) (.ended .done)
  | .missRegistry inTable => .next <| .release (.registry f.registry) (.missTable inTable)
  | .missTable inTable => .next <| .release (.table f.table) (.countMiss inTable)
  | .countMiss inTable => .next <| .count f.table .freeMisses 1 (.reportMiss inTable)
  | .reportMiss inTable =>
    .next <| .log (.freeMissed f.key inTable) (.ended (.refused (.notFound f.key)))
  | .ended outcome => .ended outcome

end Removal

end SessionBuffers
