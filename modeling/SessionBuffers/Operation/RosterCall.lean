import SessionBuffers.Outcome

/-!
# Direct use of a registry

A registry can be read and edited without any table. A key of another session is turned away
before the lock is taken. One question never waits: when the registry is locked, it is not
answered.
-/

namespace SessionBuffers

/-- What can be done to a roster directly. The operations of `SessionRegistry`
(`buffer/session_registry:91–129`), `size` being `len` with `is_empty`. -/
inductive RosterAction where
  | add (key : Key)
  | remove (key : Key)
  | contains (key : Key)
  /-- Whether a key is recorded, if that can be told at once. -/
  | tryContains (key : Key)
  | drain
  | keys
  | size
  deriving DecidableEq

/-- An action on the roster of a registry. A call of one of the operations of `SessionRegistry`
(`buffer/session_registry:91–129`). -/
structure RosterCall where
  registry : RegistryRef
  session : SessionId
  action : RosterAction
  deriving DecidableEq

namespace RosterCall

/-- Where an action stands, named for what it does next: the list is locked for one expression
(`buffer/session_registry:93–127`). -/
inductive Phase where
  | lock
  | tryLock
  | act
  | unlock (outcome : Outcome)
  | ended (outcome : Outcome)
  deriving DecidableEq

/-- The position at which an action begins. Only `add` checks its key before it locks the list
(`buffer/session_registry:92`), and only `try_contains` does not wait
(`buffer/session_registry:108`). -/
def start (c : RosterCall) : Phase :=
  match c.action with
  | .add key => if key.session = c.session then .lock else .ended .misuse
  | .tryContains _ => .tryLock
  | _ => .lock

/-- The step an action consists of, once it holds the lock. Follows `SessionRegistry.add`, `remove`,
`contains`, `try_contains`, `drain`, `keys` and `len` (`buffer/session_registry:91–125`). -/
def act (c : RosterCall) : Instr Phase :=
  match c.action with
  | .add key => .add c.registry key (.unlock .done)
  | .remove key => .remove c.registry key fun b ↦ .unlock (.flag b)
  | .contains key | .tryContains key =>
    .readRoster c.registry fun roster ↦ .unlock (.flag (roster.contains key))
  | .drain => .drain c.registry fun keys ↦ .unlock (.keys keys)
  | .keys => .readRoster c.registry fun roster ↦ .unlock (.keys roster.toList)
  | .size => .readRoster c.registry fun roster ↦ .unlock (.number roster.size)

/-- What an action does next. Each operation of `SessionRegistry` locks the list for the time of one
expression (`buffer/session_registry:91–125`). -/
def progress (c : RosterCall) : Phase → Progress Phase
  | .lock => .next <| .acquire (.registry c.registry) .exclusive .act
  | .tryLock => .next <| .tryAcquire (.registry c.registry) .exclusive .act (.ended .busy)
  | .act => .next c.act
  | .unlock outcome => .next <| .release (.registry c.registry) (.ended outcome)
  | .ended outcome => .ended outcome

end RosterCall

end SessionBuffers
