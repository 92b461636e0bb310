import SessionBuffers.Outcome

/-!
# Attaching a session

A session is attached by reserving a registry for it. A table counts and logs the sessions
attached to it; a registry can also be had without any table.
-/

namespace SessionBuffers

/-- What a registry is attached for. These are `SessionRegistry.attach`
(`buffer/session_registry:70`), `BufferTable.attach_session` (`buffer/buffer_table:186`) and
`BufferTable.open_session` (`buffer/buffer_table:176`). -/
inductive Purpose where
  /-- No table: the registry is given room for so many keys. -/
  | alone (capacity : UInt64)
  /-- Use with a table, whose limits name the room. -/
  | table (t : TableRef)
  /-- A session of a table, which owns the registry. -/
  | session (t : TableRef)
  deriving DecidableEq

/-- The attachment of a session. The arguments of `SessionRegistry.attach`
(`buffer/session_registry:70`), `attach_session` (`buffer/buffer_table:186`) or `open_session`
(`buffer/buffer_table:176`). -/
structure Attachment where
  session : SessionId
  purpose : Purpose
  deriving DecidableEq

namespace Attachment

/-- Where an attachment stands, named for what it does next. Each position stands for one line of
`SessionRegistry.attach` (`buffer/session_registry:70–83`), `attach_session`
(`buffer/buffer_table:186–191`) or `open_session` (`buffer/buffer_table:176–179`). -/
inductive Phase where
  | start
  | enroll (t : TableRef) (capacity : UInt64)
  | count (t : TableRef) (r : RegistryRef)
  | report (t : TableRef) (r : RegistryRef)
  | open (t : TableRef) (r : RegistryRef)
  | ended (outcome : Outcome)
  deriving DecidableEq

/-- Reserve the registry, or be refused. Follows `SessionRegistry.attach`
(`buffer/session_registry:70–83`). -/
def enroll (a : Attachment) (capacity : UInt64) (given : RegistryRef → Phase) : Instr Phase :=
  .enroll a.session capacity given (.ended (.refused (Supply.rosterFailure capacity)))

/-- The position after an attachment has been logged: only a session is still to be set up.
`open_session` goes on to `Session.new` (`buffer/session:40–46`). -/
def logged (a : Attachment) (t : TableRef) (r : RegistryRef) : Phase :=
  match a.purpose with
  | .session _ => .open t r
  | _ => .ended (.registry r)

/-- What an attachment does next. Follows `BufferTable.attach_session`
(`buffer/buffer_table:186–191`) and `BufferTable.open_session` (`buffer/buffer_table:176–179`). -/
def progress (a : Attachment) : Phase → Progress Phase
  | .start =>
    match a.purpose with
    | .alone capacity => .next <| a.enroll capacity fun r ↦ .ended (.registry r)
    | .table t | .session t => .next <| .consult t fun limits ↦ .enroll t limits.sessionCapacity
  | .enroll t capacity => .next <| a.enroll capacity (.count t)
  | .count t r => .next <| .count t .sessionsOpened 1 (.report t r)
  | .report t r => .next <| .log (.sessionAttached a.session) (a.logged t r)
  | .open t r => .next <| .open t r fun c ↦ .ended (.session c)
  | .ended outcome => .ended outcome

end Attachment

end SessionBuffers
