import SessionBuffers.Outcome

/-!
# Looking a buffer up

A lookup shares the table while it looks for the key and, if it finds it, until it has been given
the content; so nobody can take the buffer away in between. The guard it ends with keeps the
content locked.
-/

namespace SessionBuffers

/-- A lookup of a key, for reading or for writing. The arguments of `BufferTable.get`
(`buffer/buffer_table:307`) or `get_mut` (`buffer/buffer_table:315`). -/
structure Lookup where
  table : TableRef
  key : Key
  mode : Mode
  deriving DecidableEq

namespace Lookup

/-- Where a lookup stands, named for what it does next. Each position stands for one line of
`BufferTable.lookup` (`buffer/buffer_table:402–416`). -/
inductive Phase where
  | lockTable
  | find
  | lockContent (b : StorageRef)
  | unlockTable (b : StorageRef)
  | count (b : StorageRef)
  | missTable
  | countMiss
  | reportMiss
  | ended (outcome : Outcome)
  deriving DecidableEq

/-- What a lookup does next. Follows `BufferTable.lookup` (`buffer/buffer_table:402–416`), which
`get` and `get_mut` call with `read_guard` and `write_guard` (`buffer/buffer_table:307–317`). -/
def progress (l : Lookup) : Phase → Progress Phase
  | .lockTable => .next <| .acquire (.table l.table) .shared .find
  | .find => .next <| .readIndex l.table fun index ↦
    match index[l.key]? with
    | some b => .lockContent b
    | none => .missTable
  | .lockContent b => .next <| .acquire (.content b) l.mode (.unlockTable b)
  | .unlockTable b => .next <| .release (.table l.table) (.count b)
  | .count b => .next <| .count l.table .lookups 1 (.ended (.guard ⟨⟨l.key, b⟩, l.mode⟩))
  | .missTable => .next <| .release (.table l.table) .countMiss
  | .countMiss => .next <| .count l.table .lookupMisses 1 .reportMiss
  | .reportMiss => .next <| .log (.lookupMissed l.key) (.ended (.refused (.notFound l.key)))
  | .ended outcome => .ended outcome

end Lookup

end SessionBuffers
