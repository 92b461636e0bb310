import SessionBuffers.Outcome

/-!
# Using a buffer through its handle

A handle gives access to the content without the table. The content is locked first; if it turns
out to be released, it is given back and the buffer is not found.
-/

namespace SessionBuffers

/-- An access through a handle, for reading or for writing. Follows `BufferSlab.read`
(`buffer/slab:146–152`) and `BufferSlab.write` (`buffer/slab:158–164`). -/
structure Access where
  handle : Handle
  mode : Mode
  deriving DecidableEq

namespace Access

/-- Where an access stands, named for what it does next. Each position stands for one line of
`BufferSlab.read` (`buffer/slab:146–152`) or `BufferSlab.write` (`buffer/slab:158–164`). -/
inductive Phase where
  | lockContent
  | check
  | unlockReleased
  | ended (outcome : Outcome)
  deriving DecidableEq

/-- What an access does next. The content is locked by `read_guard` or `write_guard`
(`buffer/slab:187–193`) and then looked at (`buffer/slab:147–151,159–163`). -/
def progress (a : Access) : Phase → Progress Phase
  | .lockContent => .next <| .acquire (.content a.handle.storage) a.mode .check
  | .check => .next <| .readContent a.handle.storage fun content ↦
    if content.released then .unlockReleased else .ended (.guard ⟨a.handle, a.mode⟩)
  | .unlockReleased => .next <| .release (.content a.handle.storage)
    (.ended (.refused (.notFound a.handle.key)))
  | .ended outcome => .ended outcome

end Access

end SessionBuffers
