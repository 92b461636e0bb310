import Std.Data.ExtTreeMap.Lemmas
import SessionBuffers.Key

/-!
# The index of a table

An index maps the key of every live buffer to its storage and lists its keys in ascending order.
The keys of one session lie together in that order, so they are found by a scan of a range.
-/

namespace SessionBuffers

/-- Storage of a buffer, by its position in the order in which storage was set up. -/
abbrev StorageRef := Nat

/-- The live buffers of a table by key. Follows `BufferIndex` (`buffer/buffer_table:43–45`). -/
abbrev Index := Std.ExtTreeMap Key StorageRef compare

namespace Index

/-- The keys from `low` to `high`, both included, in ascending order. Follows the range in
`BufferIndex.session_keys` (`buffer/buffer_table:71–74`). -/
def between (index : Index) (low high : Key) : List Key :=
  (index.keys.dropWhile fun k ↦ (compare k low).isLT).takeWhile fun k ↦ (compare k high).isLE

/-- The keys of one session in ascending order. Follows `BufferIndex.session_keys`
(`buffer/buffer_table:70–75`). -/
def ofSession (index : Index) (s : SessionId) : List Key := index.between (.first s) (.last s)

end Index

end SessionBuffers
