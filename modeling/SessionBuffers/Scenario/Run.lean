import SessionBuffers.Scenario.Command
import SessionBuffers.Scenario.State

/-!
# Running a scenario

Each step is checked, its names are resolved, and it is carried out: by calls, which may have to
wait, or by looking at or editing what the client holds, which never waits.
-/

namespace SessionBuffers.Scenario

namespace State

/-- A reply that is not about any call. -/
def reply (s : State) (answer : Answer) : State × Reply := (s, ⟨answer, []⟩)

/-- The reply to a mistake. -/
def fail (s : State) (f : Fault) : State × Reply := s.reply (.fault f)

/-- Use the session of a name. -/
def withSession (s : State) (name : String) (f : SessionRef → Session → State × Reply) :
    State × Reply :=
  match s.find? name with
  | some (.session c) => f c (s.service.store.sessions.getD c default)
  | some (.registry _) => s.fail .wrongKind
  | _ => s.fail .noSuchName

/-- Use the registry of a name. -/
def withRegistry (s : State) (name : String) (f : RegistryRef → State × Reply) : State × Reply :=
  match s.find? name with
  | some (.registry r) => f r
  | some (.session _) => s.fail .wrongKind
  | _ => s.fail .noSuchName

/-- Use the table and the registry of a name: a session has its own table, and a registry is used
with the given one. -/
def withOwner (s : State) (name : String) (t : TableRef)
    (f : TableRef → RegistryRef → Option SessionRef → State × Reply) : State × Reply :=
  match s.find? name with
  | some (.session c) =>
    let session := s.service.store.sessions.getD c default
    f session.table session.registry (some c)
  | some (.registry r) => f t r none
  | _ => s.fail .noSuchName

/-- Use the handle of a name. -/
def withHandle (s : State) (name : String) (f : Handle → State × Reply) : State × Reply :=
  match s.find? name with
  | some (.handle h) => f h
  | _ => s.fail .noSuchName

/-- Use the guard of a name with the call it comes from and the content it is on. -/
def withGuard (s : State) (name : String) (f : CallRef → Guard → Content → State × Reply) :
    State × Reply :=
  match s.find? name with
  | some (.guard i) =>
    match s.service.guard? i, s.service.content? i with
    | some g, some content => f i g content
    | _, _ => s.fail .noSuchName
  | _ => s.fail .noSuchName

/-- The session a registry is for. -/
def sessionOf (s : State) (r : RegistryRef) : SessionId :=
  (s.service.store.registries.getD r default).session

/-- A handle as it is told: its key, and how its content is locked. Content counts as locked by
one call alone as soon as one waits for that. -/
def handleInfo (s : State) (h : Handle) : Value :=
  let lock := (s.service.store.lock? (.content h.storage)).getD .free
  let alone := lock.isExclusive || s.service.awaitsAlone (callsOf s.waiting) (.content h.storage)
  .handleInfo h.key lock.isHeld alone
    (recordText "BufferSlab" [("key", h.key.inspect), ("locked", flagText lock.isHeld)])

/-- A guard written with its key and content. -/
def guardText (g : Guard) (content : Content) : String :=
  let name := match g.mode with
    | .shared => "SlabReadGuard"
    | .exclusive => "SlabWriteGuard"
  recordText name [("key", g.handle.key.inspect), ("content", content.inspect)]

/-- Edit a region under a guard: a guard for reading is told so before the edit is looked at. -/
def editUnder (s : State) (i : CallRef) (g : Guard) (edit : Option (Side × Region.Edit)) :
    State × Reply :=
  match edit, g.mode with
  | none, _ => s.fail .badInput
  | some _, .shared => s.fail .readOnly
  | some (side, edit), .exclusive =>
    match s.service.act? s.supply (.edit i side edit) with
    | some service => { s with service }.reply (.ok .nothing)
    | none => s.fail .outOfBounds

/-- Carry out the command of the step at position `index`, with a name for what it gets and a
table to use. -/
def carryOut (s : State) (index : Nat) (name : Option String) (t : TableRef) (command : Command) :
    State × Reply :=
  let call (s : State) (ending : Ending) (session : Option SessionRef) (requests : List Request) :=
    s.take { index, script := { todo := requests }, ending, name, session, logged := 0 }
  match command with
  | .openSession session => call s (.owner session) none [.attach ⟨session, .session t⟩]
  | .attach session => call s (.owner session) none [.attach ⟨session, .table t⟩]
  | .attachAlone session capacity =>
    call s (.owner session) none [.attach ⟨session, .alone capacity⟩]
  | .close owner => s.withSession owner fun c _ ↦
    if s.isUsed c then s.fail .inUse else call (s.unbind owner) .plain (some c) [.endSession c]
  | .dropOwner owner =>
    match s.find? owner with
    | some (.registry _) => (s.unbind owner).reply (.ok .nothing)
    | _ => s.withSession owner fun c _ ↦
      if s.isUsed c then s.fail .inUse else call (s.unbind owner) .silent (some c) [.endSession c]
  | .teardown owner => s.withRegistry owner fun r ↦ call s .plain none [.teardown t r]
  | .sessionInfo owner => s.withSession owner fun c session ↦
    call s (.sessionInfo (s.sessionOf session.registry) session.table) (some c)
      [.roster session.registry .keys]
  | .allocate owner user kernel => s.withOwner owner t fun t r c ↦
    call s .handle c [.allocate t r user kernel]
  | .allocateMany owner n user kernel => s.withOwner owner t fun t r c ↦
    call s .tally c (List.replicate n.toNat (.allocate t r user kernel))
  | .free owner id => s.withOwner owner t fun t r c ↦ call s .plain c [.free t r id]
  | .lookupOwn owner id mode => s.withSession owner fun c session ↦
    call s .guard (some c)
      [.lookup session.table ⟨s.sessionOf session.registry, id⟩ mode]
  | .lookup key mode => call s .guard none [.lookup t key mode]
  | .access handle mode => s.withHandle handle fun h ↦ call s .guard none [.access h mode]
  | .copyHandle handle => s.withHandle handle fun h ↦
    (s.bindTo name (.handle h)).reply (.ok (.handle h))
  | .dropHandle handle => s.withHandle handle fun _ ↦ (s.unbind handle).reply (.ok .nothing)
  | .handleInfo handle => s.withHandle handle fun h ↦ s.reply (.ok (s.handleInfo h))
  | .sameStorage handle other => s.withHandle handle fun h ↦ s.withHandle other fun g ↦
    s.reply (.ok (.flag (h.sameStorage g)))
  | .dropGuard guard => s.withGuard guard fun i _ _ ↦ (s.dropGuard guard i).reply (.ok .nothing)
  | .peek guard => s.withGuard guard fun _ g content ↦
    s.reply (.ok (.ofContent g.handle.key content))
  | .inspectGuard guard => s.withGuard guard fun _ g content ↦
    s.reply (.ok (.text (guardText g content)))
  | .edit guard edit => s.withGuard guard fun i g _ ↦ s.editUnder i g edit
  | .inspect question => call s .plain none [.inspect t question]
  | .isEmpty => call s .isZero none [.inspect t .size]
  | .draw => call s .plain none [.draw t]
  | .setNextId id => (s.act (.setNextId t id)).reply (.ok .nothing)
  | .limits => s.reply (.ok (.limits (s.service.store.tables.getD t default).limits))
  | .counters => s.reply (.ok (.counters (s.service.store.tables.getD t default).counters))
  | .resetCounters => (s.act (.resetCounters t)).reply (.ok .nothing)
  | .advance counter amount =>
    let before := (s.service.store.tables.getD t default).counters.get counter
    (s.act (.count t counter amount)).reply (.ok (.number before.toNat))
  | .roster owner action => s.withRegistry owner fun r ↦ call s .plain none [.roster r action]
  | .rosterInfo owner => s.withRegistry owner fun r ↦
    call s (.rosterInfo (s.sessionOf r)) none [.roster r .keys]

/-- Take a step: its name must be free, what it asks for well formed, its table must exist, and
what has to be named must have a name. -/
def takeStep (s : State) (index : Nat) (step : Step) : State × Reply :=
  if step.name.any s.isTaken then s.fail .nameInUse
  else
    match step.command with
    | none => s.fail .badInput
    | some command =>
      if s.service.store.tables.size ≤ step.table then s.fail .badInput
      else if command.mustName && step.name.isNone then s.fail .badInput
      else s.carryOut index step.name step.table command

/-- Take all steps from position `index` on, and report after each. -/
def takeSteps (s : State) (index : Nat) : List Step → State × List Report
  | [] => (s, [])
  | step :: steps =>
    let (s, reply) := s.takeStep index step
    let survey := s.survey
    let (resumed, s) := s.tellResumed
    let (s, reports) := s.takeSteps (index + 1) steps
    (s, ⟨reply, survey, resumed⟩ :: reports)

/-- The guard bound first. -/
def firstGuard? (s : State) : Option (String × CallRef) :=
  s.names.findSome? fun
    | (name, .guard i) => some (name, i)
    | _ => none

/-- Drop at most `fuel` guards in the order in which they were bound. -/
def dropGuards : (fuel : Nat) → State → State
  | 0, s => s
  | fuel + 1, s =>
    match s.firstGuard? with
    | some (name, i) => dropGuards fuel (s.dropGuard name i)
    | none => s

/-- End the sessions that are left, in the order of their names. -/
def endSessions (s : State) : State :=
  let ordered := s.names.mergeSort fun a b ↦ decide (a.1 ≤ b.1)
  ordered.foldl (fun s entry ↦
    match entry.2 with
    | .session _ => (s.carryOut 0 none 0 (.dropOwner entry.1)).1
    | _ => s) s

end State

/-- Run a scenario over tables with the given limits. In the end guards are dropped in the order in
which they were had, then sessions in the order of their names. -/
def run (supply : Supply) (limits : List Limits) (steps : List Step) : Record :=
  let (s, reports) := State.takeSteps { supply, service := .withTables limits } 0 steps
  let s := s.dropGuards (s.names.length + s.waiting.length)
  let guardsDropped := s.survey
  let (resumed, s) := s.tellResumed
  let logged := s.service.store.log.size
  let s := s.endSessions
  { steps := reports
    guardsDropped
    resumed
    allDropped := s.survey
    log := (s.service.store.log.toList.drop logged).map Prod.snd }

end SessionBuffers.Scenario
