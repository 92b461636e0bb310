import SessionBuffers.Outcome

/-!
# Tearing a session down

A teardown holds the registry and the table throughout. It closes and empties the roster and then
releases the buffers it listed one after the other in ascending order, waiting for everyone who
uses their content. A listed key that the table does not have is reported and passed over.
-/

namespace SessionBuffers

/-- A teardown: of which registry, and in which table. The argument of
`BufferTable.teardown_session` (`buffer/buffer_table:198`). -/
structure Teardown where
  table : TableRef
  registry : RegistryRef
  session : SessionId
  deriving DecidableEq

namespace Teardown

/-- How far a teardown has come through the keys its roster listed. These are `first_teardown`, the
iterator and `released` of `teardown_session` (`buffer/buffer_table:201–203`). -/
structure Sweep where
  /-- Whether the roster had not been closed before. -/
  first : Bool
  /-- The keys dealt with, latest first. -/
  passed : List Key
  /-- The keys to come. -/
  todo : List Key
  /-- How many of the keys dealt with were in the table. -/
  released : Nat
  deriving DecidableEq

namespace Sweep

/-- The sweep at its beginning (`buffer/buffer_table:201–203`). -/
def start (first : Bool) (keys : List Key) : Sweep := ⟨first, [], keys, 0⟩

/-- The sweep past a key that was not in the table (`buffer/buffer_table:204–207`). -/
def skip (s : Sweep) (key : Key) : Sweep := { s with passed := key :: s.passed }

/-- The sweep past a key whose buffer has been released (`buffer/buffer_table:210–213`). -/
def take (s : Sweep) (key : Key) : Sweep :=
  { s with passed := key :: s.passed, released := s.released + 1 }

end Sweep

/-- Where a teardown stands, named for what it does next. A sweep beside a key is the sweep before
that key, without the key. Each position stands for one line of `teardown_session`
(`buffer/buffer_table:198–225`), but the first for `Session.teardown` (`buffer/session:105–111`). -/
inductive Phase where
  /-- The teardown ends a session, which is marked first. -/
  | finish (c : SessionRef)
  | lockRegistry
  | lockTable
  | close
  | drain (first : Bool)
  | find (key : Key) (s : Sweep)
  | reportMissing (key : Key) (s : Sweep)
  | lockContent (key : Key) (b : StorageRef) (s : Sweep)
  | erase (key : Key) (b : StorageRef) (s : Sweep)
  | dispose (key : Key) (b : StorageRef) (s : Sweep)
  | unlockContent (key : Key) (b : StorageRef) (s : Sweep)
  | unlockRegistry (s : Sweep)
  | unlockTable (s : Sweep)
  | countReleased (s : Sweep)
  | countClosed (s : Sweep)
  | report (s : Sweep)
  | ended (outcome : Outcome)
  deriving DecidableEq

/-- The position at which a sweep goes on: at its next key, or past its last one
(`buffer/buffer_table:203`). -/
def Phase.resume (s : Sweep) : Phase :=
  match s.todo with
  | [] => .unlockRegistry s
  | key :: todo => .find key { s with todo }

/-- What a teardown does next. Follows `BufferTable.teardown_session`
(`buffer/buffer_table:198–225`), and for the end of a session `Session.close`, `Session.teardown`
and `Session.drop` (`buffer/session:101–118`). -/
def progress (d : Teardown) : Phase → Progress Phase
  | .finish c => .next <| .finish c .lockRegistry (.ended (.number 0))
  | .lockRegistry => .next <| .acquire (.registry d.registry) .exclusive .lockTable
  | .lockTable => .next <| .acquire (.table d.table) .exclusive .close
  | .close => .next <| .close d.registry .drain
  | .drain first => .next <| .drain d.registry fun keys ↦ .resume (.start first keys)
  | .find key s => .next <| .readIndex d.table fun index ↦
    match index[key]? with
    | some b => .lockContent key b s
    | none => .reportMissing key s
  | .reportMissing key s => .next <| .log (.listedButMissing key) (.resume (s.skip key))
  | .lockContent key b s => .next <| .acquire (.content b) .exclusive (.erase key b s)
  | .erase key b s => .next <| .erase d.table key (.dispose key b s)
  | .dispose key b s => .next <| .dispose b (.unlockContent key b s)
  | .unlockContent key b s => .next <| .release (.content b) (.resume (s.take key))
  | .unlockRegistry s => .next <| .release (.registry d.registry) (.unlockTable s)
  | .unlockTable s => .next <| .release (.table d.table) (.countReleased s)
  | .countReleased s => .next <|
    .count d.table .buffersReclaimed (.ofNat s.released)
      (if s.first then .countClosed s else .report s)
  | .countClosed s => .next <| .count d.table .sessionsClosed 1 (.report s)
  | .report s =>
    .next <| .log (.sessionTornDown d.session s.released) (.ended (.number s.released))
  | .ended outcome => .ended outcome

end Teardown

end SessionBuffers
