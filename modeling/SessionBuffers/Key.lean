import SessionBuffers.Record

/-!
# Buffer keys

A buffer is known by its session and by a number within the table. Keys are ordered by
session first, so that the keys of one session are exactly the keys between `Key.first`
and `Key.last` of that session.
-/

namespace SessionBuffers

/-- The number a client session is known by. Follows `SessionId` (`common/session_id:18`). -/
structure SessionId where
  number : UInt32
  deriving DecidableEq, Inhabited

/-- The number a table hands out with a buffer. Follows `BufferId` (`common/buffer_id:10`). -/
structure BufferId where
  number : UInt64
  deriving DecidableEq, Inhabited

/-- What a buffer is found by: whose it is, then which one. Follows `BufferKey`
(`common/buffer_key:22–25`). -/
structure Key where
  session : SessionId
  buffer : BufferId
  deriving DecidableEq, Inhabited

/-! ### Order -/

/-- Sessions are ordered by number. -/
instance : Ord SessionId := ⟨compareOn SessionId.number⟩

/-- Buffers are ordered by number. -/
instance : Ord BufferId := ⟨compareOn BufferId.number⟩

/-- Keys are ordered by session, and within a session by buffer. -/
instance : Ord Key := ⟨compareLex (compareOn Key.session) (compareOn Key.buffer)⟩

instance : Std.TransOrd SessionId :=
  inferInstanceAs (Std.TransCmp (compareOn SessionId.number))

instance : Std.TransOrd BufferId :=
  inferInstanceAs (Std.TransCmp (compareOn BufferId.number))

instance : Std.TransOrd Key :=
  inferInstanceAs (Std.TransCmp (compareLex (compareOn Key.session) (compareOn Key.buffer)))

/-- Sessions that compare equal are equal. -/
instance : Std.LawfulEqOrd SessionId where
  eq_of_compare {a b} h := by
    have hn : compare a.number b.number = .eq := h
    cases a
    cases b
    exact congrArg SessionId.mk (Std.LawfulEqCmp.eq_of_compare hn)

/-- Buffer numbers that compare equal are equal. -/
instance : Std.LawfulEqOrd BufferId where
  eq_of_compare {a b} h := by
    have hn : compare a.number b.number = .eq := h
    cases a
    cases b
    exact congrArg BufferId.mk (Std.LawfulEqCmp.eq_of_compare hn)

/-- The session decides; only within one session does the buffer number. -/
theorem Key.compare_eq (a b : Key) :
    compare a b = (compare a.session b.session).then (compare a.buffer b.buffer) := rfl

/-- Keys that compare equal are equal. -/
instance : Std.LawfulEqOrd Key where
  eq_of_compare {a b} h := by
    rw [Key.compare_eq, Ordering.then_eq_eq] at h
    cases a
    cases b
    exact congr (congrArg Key.mk (Std.LawfulEqCmp.eq_of_compare h.1))
      (Std.LawfulEqCmp.eq_of_compare h.2)

namespace Key

/-- The least key of a session. Follows `BufferKey.session_start` (`common/buffer_key:36–38`). -/
def first (s : SessionId) : Key := ⟨s, ⟨0⟩⟩

/-- The greatest key of a session. Follows `BufferKey.session_end` (`common/buffer_key:42–44`). -/
def last (s : SessionId) : Key := ⟨s, ⟨.ofNat (UInt64.size - 1)⟩⟩

/-- Keys in ascending order, repeated ones kept. -/
def sort (keys : List Key) : List Key := keys.mergeSort fun a b ↦ (compare a b).isLE

end Key

/-! ### Written forms -/

/-- A session as messages name it (`common/session_id:28–32`). -/
def SessionId.display (s : SessionId) : String := "Session(" ++ toString s.number.toNat ++ ")"

/-- A session as a field of a record. -/
def SessionId.inspect (s : SessionId) : String := "SessionId(" ++ toString s.number.toNat ++ ")"

/-- A buffer number as messages name it (`common/buffer_id:26–30`). -/
def BufferId.display (b : BufferId) : String := "Buffer(" ++ wordText b.number ++ ")"

/-- A buffer number as a field of a record. -/
def BufferId.inspect (b : BufferId) : String := "BufferId(" ++ wordText b.number ++ ")"

/-- A key as messages name it: session, then buffer (`common/buffer_key:47–51`). -/
def Key.display (k : Key) : String :=
  "Key(" ++ toString k.session.number.toNat ++ ", " ++ wordText k.buffer.number ++ ")"

/-- A key written field by field. -/
def Key.inspect (k : Key) : String :=
  recordText "BufferKey" [("session", k.session.inspect), ("buffer", k.buffer.inspect)]

end SessionBuffers
