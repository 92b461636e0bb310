import SessionBuffers.Failure

/-!
# Events

What operations log: a level, a fixed message and named fields.
-/

namespace SessionBuffers

/-- How much an event matters. -/
inductive Level where
  | trace
  | debug
  | warn
  deriving DecidableEq

/-- The name of a level. -/
def Level.name : Level → String
  | .trace => "TRACE"
  | .debug => "DEBUG"
  | .warn => "WARN"

/-- The value of a field. -/
inductive FieldValue where
  | number (n : Nat)
  | flag (b : Bool)
  | text (s : String)
  deriving DecidableEq

/-- What has been logged. The events of `attach_session`, `teardown_session`, `allocate`, `free` and
`lookup` (`buffer/buffer_table:189,205,223,250–253,275,291,385,407`). -/
inductive Event where
  | sessionAttached (session : SessionId)
  | sessionTornDown (session : SessionId) (released : Nat)
  /-- A roster named a key that its table does not hold. -/
  | listedButMissing (key : Key)
  | allocated (key : Key) (user kernel : UInt64)
  | allocateFailed (session : SessionId) (user kernel : UInt64) (why : Failure)
  | freed (key : Key)
  /-- A free named a buffer of which the session is not the owner. -/
  | freeMissed (key : Key) (inTable : Bool)
  | lookupMissed (key : Key)
  deriving DecidableEq

namespace Event

/-- How much the event matters. -/
def level : Event → Level
  | .sessionAttached _ => .debug
  | .sessionTornDown _ _ => .debug
  | .listedButMissing _ => .warn
  | .allocated _ _ _ => .debug
  | .allocateFailed _ _ _ _ => .warn
  | .freed _ => .debug
  | .freeMissed _ _ => .warn
  | .lookupMissed _ => .trace

/-- What the event says. -/
def message : Event → String
  | .sessionAttached _ => "session attached"
  | .sessionTornDown _ _ => "session torn down"
  | .listedButMissing _ => "session listed a buffer missing from the table"
  | .allocated _ _ _ => "buffer allocated"
  | .allocateFailed _ _ _ _ => "allocate failed"
  | .freed _ => "buffer freed"
  | .freeMissed _ _ => "free of a buffer this session does not own"
  | .lookupMissed _ => "lookup miss"

private def sessionField (s : SessionId) : String × FieldValue :=
  ("session", .number s.number.toNat)

private def keyField (k : Key) : String × FieldValue := ("key", .text k.display)

private def sizeFields (user kernel : UInt64) : List (String × FieldValue) :=
  [("user_size", .number user.toNat), ("kernel_size", .number kernel.toNat)]

/-- What the event names. -/
def fields : Event → List (String × FieldValue)
  | .sessionAttached session => [sessionField session]
  | .sessionTornDown session released => [sessionField session, ("released", .number released)]
  | .listedButMissing key => [keyField key]
  | .allocated key user kernel => keyField key :: sizeFields user kernel
  | .allocateFailed session user kernel why =>
    sessionField session :: sizeFields user kernel ++ [("err", .text why.message)]
  | .freed key => [keyField key]
  | .freeMissed key inTable => [keyField key, ("in_table", .flag inTable)]
  | .lookupMissed key => [keyField key]

end Event

end SessionBuffers
