import SessionBuffers.Service

/-!
# Who goes first

Calls that have to wait for a lock queue in the order in which they began to wait. A lock that
comes free goes to the first of them that wants it alone, and only when there is none to all that
would share it; so whoever wants to share a lock waits as soon as another call waits to have it
alone.
-/

namespace SessionBuffers

/-- A sequence of requests, each made when the one before has ended. -/
structure Script where
  /-- The call under way, if there is one. -/
  current : Option CallRef := none
  /-- The requests still to be made. -/
  todo : List Request
  /-- Every call made, latest first. -/
  calls : List CallRef := []
  /-- The outcomes so far, latest first. -/
  outcomes : List Outcome := []

namespace Script

/-- Whether every request has been made and has ended. -/
def isDone (s : Script) : Bool := s.current.isNone && s.todo.isEmpty

/-- The script with the outcome of its current call noted. -/
def note (s : Script) (outcome : Outcome) : Script :=
  { s with current := none, outcomes := outcome :: s.outcomes }

end Script

namespace Service

/-- Whether one of these calls waits to have a lock alone. -/
def awaitsAlone (s : Service) (queue : List CallRef) (name : LockName) : Bool :=
  queue.any fun i ↦ s.wants i == some (name, .exclusive)

/-- Whether the holders of a lock leave room for one more in the given mode. -/
def admits (s : Service) (name : LockName) (mode : Mode) : Bool :=
  match s.store.lock? name with
  | some l => l.admits mode
  | none => false

/-- Whether a call has to wait, with these calls queued before it. -/
def mustWait (s : Service) (queue : List CallRef) (i : CallRef) : Bool :=
  match s.wants i with
  | some (name, mode) => !s.admits name mode || s.awaitsAlone queue name
  | none => false

/-- Those queued before a call in the middle of a queue: whoever would share a lock lets everyone
pass who wants it alone, and whoever wants it alone only those that came before. -/
def ahead (s : Service) (earlier : List CallRef) (i : CallRef) (later : List CallRef) :
    List CallRef :=
  match s.wants i with
  | some (_, .shared) => earlier ++ later
  | _ => earlier

/-- How much is left to do at most: every call under way is done within a fixed number of steps
but for a teardown, which has as many again for each key that its roster lists. -/
def work (s : Service) : Nat :=
  let perCall (call : Call) : Nat :=
    match call.job with
    | .tearingDown _ (.find _ sweep) | .tearingDown _ (.lockContent _ _ sweep) =>
      32 + 8 * sweep.todo.length
    | job => if job.outcome?.isSome then 0 else 32
  (s.calls.foldl (fun n call ↦ n + perCall call) 0) +
    8 * s.store.registries.foldl (fun n registry ↦ n + registry.roster.size) 0

/-- Let a script go on until it is done or has to wait, for at most `fuel` steps. The calls in
`queue` are waiting. -/
def advance (supply : Supply) (queue : List CallRef) :
    (fuel : Nat) → Service → Script → Service × Script
  | 0, s, script => (s, script)
  | fuel + 1, s, script =>
    match script.current with
    | none =>
      match script.todo with
      | [] => (s, script)
      | request :: todo =>
        let i := s.calls.size
        match s.invoke? request with
        | none => advance supply queue fuel s ({ script with todo }.note .misuse)
        | some s =>
          advance supply queue fuel s
            { script with current := some i, todo, calls := i :: script.calls }
    | some i =>
      match s.outcome? i with
      | some outcome => advance supply queue fuel s (script.note outcome)
      | none =>
        if s.mustWait queue i then (s, script)
        else
          match s.step? supply i with
          | none => (s, script)
          | some s => advance supply queue fuel s script

/-- Let a script go on as far as it can, with these calls waiting. -/
def go (supply : Supply) (queue : List CallRef) (s : Service) (script : Script) :
    Service × Script :=
  s.advance supply queue (s.work + 64 * (script.todo.length + 1)) script

/-- Let a script go on as far as it can after the lock it waits for has been granted. -/
def grant (supply : Supply) (queue : List CallRef) (s : Service) (script : Script) :
    Service × Script :=
  match script.current.bind (s.step? supply) with
  | some s => s.go supply queue script
  | none => (s, script)

end Service

end SessionBuffers
