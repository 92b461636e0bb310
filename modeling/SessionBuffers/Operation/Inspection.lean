import SessionBuffers.Outcome

/-!
# Asking a table

Questions about the index are answered while the table is shared.
-/

namespace SessionBuffers

/-- What a table can be asked. These are `contains`, `len` with `is_empty`, and `session_keys`
(`buffer/buffer_table:323–339`). -/
inductive Question where
  /-- Whether a key is in the index. -/
  | contains (key : Key)
  /-- How many buffers there are. -/
  | size
  /-- The keys of one session in ascending order. -/
  | keysOf (s : SessionId)
  deriving DecidableEq

/-- The answer an index gives. Follows `BufferIndex.find` (`buffer/buffer_table:62–64`) and
`BufferIndex.len` (`buffer/buffer_table:77–79`) and `BufferIndex.session_keys`
(`buffer/buffer_table:70–75`). -/
def Question.answer (index : Index) : Question → Outcome
  | contains key => .flag (index.contains key)
  | size => .number index.size
  | keysOf s => .keys (index.ofSession s)

/-- A question to a table. A call of `contains`, `len` or `session_keys`
(`buffer/buffer_table:323–339`). -/
structure Inspection where
  table : TableRef
  question : Question
  deriving DecidableEq

namespace Inspection

/-- Where a question stands, named for what is done next: the lock is taken for one expression
(`buffer/buffer_table:324,329,338`). -/
inductive Phase where
  | lockTable
  | read
  | unlockTable (outcome : Outcome)
  | ended (outcome : Outcome)
  deriving DecidableEq

/-- What is done next. Follows `contains`, `len` and `session_keys` (`buffer/buffer_table:323–339`):
the table is shared for the time of one expression. -/
def progress (i : Inspection) : Phase → Progress Phase
  | .lockTable => .next <| .acquire (.table i.table) .shared .read
  | .read => .next <| .readIndex i.table fun index ↦ .unlockTable (i.question.answer index)
  | .unlockTable outcome => .next <| .release (.table i.table) (.ended outcome)
  | .ended outcome => .ended outcome

end Inspection

end SessionBuffers
