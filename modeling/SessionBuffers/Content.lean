import SessionBuffers.Record
import SessionBuffers.Region

/-!
# Content of a buffer

A buffer has a region shared with its session and a region of its own. Both start as zeros; when
the buffer leaves its table both are emptied and the content is marked as released.
-/

namespace SessionBuffers

/-- Which of the two regions of a buffer is meant. -/
inductive Side where
  /-- The region exchanged with the session. -/
  | user
  /-- The region of the buffer's owner. -/
  | kernel
  deriving DecidableEq

/-- The two regions of a buffer, and whether they have been given back. Follows `SlabContent`
(`buffer/slab:23–27`). -/
structure Content where
  user : Region
  kernel : Region
  released : Bool
  deriving DecidableEq, Inhabited

namespace Content

/-- Fresh content: zeros in both regions. Follows `SlabContent.try_new` (`buffer/slab:31–46`) and
`zeroed` (`buffer/slab:95–100`). -/
def zeroed (user kernel : UInt64) : Content :=
  ⟨.replicate user.toNat 0, .replicate kernel.toNat 0, false⟩

/-- Content given back: both regions are gone. Follows `SlabContent.release` (`buffer/slab:78–82`).
-/
def gone : Content := ⟨.empty, .empty, true⟩

/-- Content that has been given up: it is marked as released, and no region has a byte left. -/
structure Emptied (c : Content) : Prop where
  released : c.released = true
  user : c.user.toList = []
  kernel : c.kernel.toList = []

/-- Giving content back sets these fields. -/
@[simp] theorem emptied_gone : gone.Emptied := ⟨rfl, rfl, rfl⟩

/-- There is only one content that has been given up. -/
theorem emptied_iff {c : Content} : c.Emptied ↔ c = gone := by
  constructor
  · rintro ⟨hreleased, huser, hkernel⟩
    obtain ⟨user, kernel, released⟩ := c
    obtain rfl : user = .empty := Region.ext_toList huser
    obtain rfl : kernel = .empty := Region.ext_toList hkernel
    obtain rfl : released = true := hreleased
    rfl
  · rintro rfl
    exact emptied_gone

/-- One of the regions. Follows `SlabContent.user` and `kernel` (`buffer/slab:50–63`). -/
def side (c : Content) : Side → Region
  | .user => c.user
  | .kernel => c.kernel

/-- The content with one region replaced. What is written through `SlabContent.user_mut` and
`kernel_mut` (`buffer/slab:55–68`). -/
def setSide (c : Content) (which : Side) (r : Region) : Content :=
  match which with
  | .user => { c with user := r }
  | .kernel => { c with kernel := r }

/-- Replacing a region neither releases content nor takes a release back. -/
@[simp] theorem released_setSide (c : Content) (which : Side) (r : Region) :
    (c.setSide which r).released = c.released := by
  cases which <;> rfl

/-- The content written with the lengths of its regions. Follows the written form of `SlabContent`
(`buffer/slab:85–93`). -/
def inspect (c : Content) : String :=
  recordText "SlabContent" [("kernel_len", toString c.kernel.size),
    ("user_len", toString c.user.size), ("released", flagText c.released)]

end Content

end SessionBuffers
