import SessionBuffers.Failure

/-!
# What storage can be had

Storage is reserved before it is used, and a reservation that cannot be met is reported. A
`Supply` says which reservations are met.
-/

namespace SessionBuffers

/-- Which reservations of storage are met. These are the outcomes of `try_reserve_exact` in `zeroed`
(`buffer/slab:97`) and of `try_reserve` in `SessionRegistry.attach` and `SessionList.reserve_one`
(`buffer/session_registry:28,73`). -/
structure Supply where
  /-- Whether the regions of a buffer can be had, by their sizes in bytes. -/
  regions : (user kernel : UInt64) → Bool
  /-- Whether a roster with room for so many keys can be had. -/
  roster : (capacity : UInt64) → Bool
  /-- Whether a roster can be given room for one more key, that of a buffer of these sizes. -/
  slot : (user kernel : UInt64) → Bool

namespace Supply

/-- The bytes a recorded key takes. -/
def keyBytes : Nat := 16

/-- Everything that fits into an address space of 47 bits can be had, and always room for one more
key. -/
def addressable : Supply where
  regions user kernel := user.toNat < Nat.pow 2 47 && kernel.toNat < Nat.pow 2 47
  roster capacity := capacity.toNat * keyBytes < Nat.pow 2 47
  slot _ _ := true

/-- How a roster that cannot be had is reported: the bytes of its keys, or the largest word. Follows
`SessionRegistry.attach` (`buffer/session_registry:74–77`). -/
def rosterFailure (capacity : UInt64) : Failure :=
  .allocationFailed 0 (.ofNat (min (capacity.toNat * keyBytes) (UInt64.size - 1)))

end Supply

end SessionBuffers
