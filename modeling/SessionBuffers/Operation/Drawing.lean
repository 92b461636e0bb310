import SessionBuffers.Outcome

/-!
# Drawing a number

The next number of a table can be drawn without allocating anything and without any lock.
-/

namespace SessionBuffers

/-- A request for the next number of a table. A call of `BufferTable.next_id`
(`buffer/buffer_table:163`). -/
structure Drawing where
  table : TableRef
  deriving DecidableEq

namespace Drawing

/-- Where the request stands, named for what it does next: `fetch_add` is its only step
(`buffer/buffer_table:164`). -/
inductive Phase where
  | draw
  | ended (outcome : Outcome)
  deriving DecidableEq

/-- What the request does next. Follows `BufferTable.next_id` (`buffer/buffer_table:163–165`). -/
def progress (d : Drawing) : Phase → Progress Phase
  | .draw => .next <| .draw d.table fun id ↦ .ended (.id id)
  | .ended outcome => .ended outcome

end Drawing

end SessionBuffers
