import SessionBuffers.Scenario.Answer
import SessionBuffers.Schedule

/-!
# The state of a scenario

Every step is taken as if by a thread of its own. A step that has to wait stays in a queue, and
after every step all that can go on does: `State.settle` gives locks to waiting steps until nobody
can be given one. What a step gets is bound to its name when the step ends; a handle or guard
without a name is let go of at once.
-/

namespace SessionBuffers.Scenario

/-- What a name stands for. -/
inductive Named where
  | session (c : SessionRef)
  | registry (r : RegistryRef)
  | handle (h : Handle)
  /-- The guard of a call. -/
  | guard (i : CallRef)
  deriving DecidableEq

/-- How the outcomes of a step's calls become its answer. -/
inductive Ending where
  /-- The outcome of the only call, and nothing to bind. -/
  | plain
  /-- As before, but a success is not told further. -/
  | silent
  /-- A registry or session, told by its number. -/
  | owner (session : SessionId)
  | handle
  | guard
  /-- Whether the number is zero. -/
  | isZero
  /-- How many of all calls succeeded. -/
  | tally
  | sessionInfo (session : SessionId) (t : TableRef)
  | rosterInfo (session : SessionId)
  deriving DecidableEq

/-- Whether the step binds its name only when it ends, so that the name is taken meanwhile. -/
def Ending.binds : Ending → Bool
  | owner _ | handle | guard => true
  | _ => false

/-- A step under way. -/
structure Running where
  /-- The position of the step in the scenario. -/
  index : Nat
  script : Script
  ending : Ending
  name : Option String
  /-- The session the step uses. -/
  session : Option SessionRef
  /-- How many events had been logged before the step. -/
  logged : Nat

/-- The objects of a scenario, by name, and the steps that wait. -/
structure State where
  supply : Supply
  service : Service
  /-- Names in the order in which they were bound. -/
  names : List (String × Named) := []
  /-- Steps that wait, in the order in which they began to. -/
  waiting : List Running := []
  /-- The replies of steps that waited and have ended since they were last told. -/
  resumed : List (Nat × Reply) := []

namespace State

/-- What a name stands for. -/
def find? (s : State) (name : String) : Option Named := s.names.lookup name

/-- The state with a name bound to an object. -/
def bind (s : State) (name : String) (object : Named) : State :=
  { s with names := s.names ++ [(name, object)] }

/-- The state with a name that stands for nothing. -/
def unbind (s : State) (name : String) : State :=
  { s with names := s.names.filter fun entry ↦ entry.1 != name }

/-- Whether a name stands for something, or will when a waiting step ends. -/
def isTaken (s : State) (name : String) : Bool :=
  (s.find? name).isSome ||
    s.waiting.any fun w ↦ w.ending.binds && w.name == some name

/-- Whether a waiting step uses a session. -/
def isUsed (s : State) (c : SessionRef) : Bool := s.waiting.any fun w ↦ w.session == some c

/-- The state after an action on its service, which stays as it is when the action cannot be
taken. -/
def act (s : State) (action : Action) : State :=
  { s with service := (s.service.act? s.supply action).getD s.service }

/-- The calls that waiting steps are held up in. -/
def callsOf (steps : List Running) : List CallRef := steps.filterMap fun w ↦ w.script.current

/-- The events logged by the calls of a step. -/
def eventsOf (s : State) (w : Running) : List Event :=
  (s.service.store.log.toList.drop w.logged).filterMap fun entry ↦
    if w.script.calls.contains entry.1 then some entry.2 else none

/-- The tables as they are told. -/
def survey (s : State) : Survey where
  counters := s.service.store.tables.toList.map Table.counters
  sizes :=
    if s.waiting.isEmpty then some (s.service.store.tables.toList.map fun t ↦ t.index.size)
    else none

/-! ### Ending a step -/

/-- The answer an outcome amounts to when there is nothing to bind. -/
def plainAnswer : Outcome → Answer
  | .done => .ok .nothing
  | .flag b => .ok (.flag b)
  | .number n | .registry n | .session n => .ok (.number n)
  | .id b => .ok (.number b.number.toNat)
  | .keys ks => .ok (.keys ks)
  | .handle h => .ok (.handle h)
  | .guard g => .ok (.handle g.handle)
  | .refused why => .refused why
  | .busy => .ok .nothing
  | .misuse => .misuse

/-- How many of the outcomes are handles, how many are not, and the first and the last handle's
number. -/
def tally (outcomes : List Outcome) : Value :=
  let ids := outcomes.filterMap fun
    | .handle h => some h.key.buffer
    | _ => none
  .tally ids.length (outcomes.length - ids.length) ids.head? ids.getLast?

/-- A session as it is told: its number, the numbers of its buffers, and the two in one text. -/
def sessionInfo (session : SessionId) (t : TableRef) (keys : List Key) : Value :=
  .sessionInfo session (keys.map Key.buffer)
    (recordText "Session" [("id", session.inspect), ("buffers", toString keys.length),
      ("closed", flagText false)]) t

/-- The state with what a step got bound to the step's name, if it has one. -/
def bindTo (s : State) (name : Option String) (object : Named) : State :=
  match name with
  | some name => s.bind name object
  | none => s

/-- The answer of a step whose calls have ended, and the state with what it got bound or let go
of. -/
def conclude (s : State) (w : Running) : State × Answer :=
  match w.ending, w.script.outcomes with
  | .tally, outcomes => (s, .ok (tally outcomes.reverse))
  | .silent, [.refused why] => (s, .refused why)
  | .silent, _ => (s, .ok .nothing)
  | .owner session, [.registry r] =>
    (s.bindTo w.name (.registry r), .ok (.number session.number.toNat))
  | .owner session, [.session c] =>
    (s.bindTo w.name (.session c), .ok (.number session.number.toNat))
  | .handle, [.handle h] => (s.bindTo w.name (.handle h), .ok (.handle h))
  | .guard, [.guard g] =>
    match w.script.calls with
    | i :: _ =>
      let answer : Answer := match s.service.content? i with
        | some content => .ok (.ofContent g.handle.key content)
        | none => .misuse
      match w.name with
      | some name => (s.bind name (.guard i), answer)
      | none => (s.act (.dropGuard i), answer)
    | [] => (s, .misuse)
  | .isZero, [.number n] => (s, .ok (.flag (n == 0)))
  | .sessionInfo session t, [.keys keys] => (s, .ok (sessionInfo session t keys))
  | .rosterInfo session, [.keys keys] => (s, .ok (.rosterInfo session keys))
  | _, [outcome] => (s, plainAnswer outcome)
  | _, _ => (s, .misuse)

/-! ### Going on -/

/-- The first waiting step that can be given its lock, and the others. -/
def nextReady (service : Service) :
    (earlier later : List Running) → Option (Running × List Running)
  | _, [] => none
  | earlier, w :: later =>
    let canGo := w.script.current.any fun i ↦
      !service.mustWait (service.ahead (callsOf earlier) i (callsOf later)) i
    if canGo then some (w, earlier ++ later) else nextReady service (earlier ++ [w]) later

/-- Give locks to waiting steps, at most `fuel` times, until nobody can be given one. -/
def settleFor : (fuel : Nat) → State → State
  | 0, s => s
  | fuel + 1, s =>
    match nextReady s.service [] s.waiting with
    | none => s
    | some (w, others) =>
      let (service, script) := s.service.grant s.supply (callsOf others) w.script
      let w := { w with script }
      if script.isDone then
        let (s, answer) := { s with service, waiting := others }.conclude w
        settleFor fuel { s with resumed := s.resumed ++ [(w.index, ⟨answer, s.eventsOf w⟩)] }
      else settleFor fuel { s with service, waiting := others ++ [w] }

/-- Give locks to waiting steps until nobody can be given one. Every lock given means a step done,
so there are no more of them than there is work left. -/
def settle (s : State) : State :=
  let left := s.waiting.foldl (fun n w ↦ n + 64 * (w.script.todo.length + 1)) s.service.work
  s.settleFor left

/-- Take a step as far as it can go, and then let all that wait go on. -/
def take (s : State) (w : Running) : State × Reply :=
  let w := { w with logged := s.service.store.log.size }
  let (service, script) := s.service.go s.supply (callsOf s.waiting) w.script
  let w := { w with script }
  if script.isDone then
    let (s, answer) := { s with service }.conclude w
    (s.settle, ⟨answer, s.eventsOf w⟩)
  else
    ({ s with service, waiting := s.waiting ++ [w] }.settle, ⟨.blocked, []⟩)

/-- Drop the guard of a name, and then let all that wait go on. -/
def dropGuard (s : State) (name : String) (i : CallRef) : State :=
  ((s.unbind name).act (.dropGuard i)).settle

/-- The replies of steps that have ended meanwhile, by position, and the state that has told
them. -/
def tellResumed (s : State) : List (Nat × Reply) × State :=
  (s.resumed.mergeSort fun a b ↦ a.1 ≤ b.1, { s with resumed := [] })

end State

end SessionBuffers.Scenario
