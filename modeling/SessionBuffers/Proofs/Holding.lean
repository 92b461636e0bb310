import SessionBuffers.Proofs.History

/-!
# Which call holds which lock

The position of a call determines the locks it holds (`Job.held`), and the holders of every lock
are exactly the calls whose positions say so (`Locked`): a call under way holds what it has taken
and not given back, and a call that ended with a guard holds the content until the guard is
dropped. So a call that holds a lock alone keeps every other call away from it.
-/

namespace SessionBuffers

/-! ### Holders of one lock -/

namespace Lock

/-- Whether no call holds the lock twice. -/
def Nodup : Lock → Prop
  | .shared holders => holders.Nodup
  | .exclusive _ => True

variable {l m : Lock} {who i : CallRef} {mode md : Mode}

@[simp] theorem not_holds_free : ¬ free.Holds i mode := by
  cases mode <;> simp [free, Holds]

theorem nodup_free : free.Nodup := List.nodup_nil

/-- A lock that has been taken is held by its earlier holders and by the call that took it. -/
theorem holds_of_acquire? (h : l.acquire? who mode = some m) :
    m.Holds i md ↔ l.Holds i md ∨ i = who ∧ md = mode := by
  cases l with
  | shared holders =>
    cases mode with
    | shared =>
      cases h
      cases md <;> simp [Holds, or_comm]
    | exclusive =>
      cases holders with
      | nil =>
        cases h
        cases md <;> simp [Holds]
      | cons _ _ => cases h
  | exclusive holder => cases mode <;> cases h

/-- Nobody holds a lock that is given to a call alone. -/
theorem not_holds_of_acquire?_exclusive (h : l.acquire? who .exclusive = some m) :
    ¬ l.Holds i md := by
  cases l with
  | shared holders =>
    cases holders with
    | nil => cases md <;> simp [Holds]
    | cons _ _ => cases h
  | exclusive holder => cases h

/-- Nobody holds alone a lock that is given to one more call. -/
theorem not_holds_exclusive_of_acquire? (h : l.acquire? who mode = some m) :
    ¬ l.Holds i .exclusive := by
  cases l with
  | shared holders => simp [Holds]
  | exclusive holder => cases mode <;> cases h

/-- A lock that is held and given to one more call is shared by all of them. -/
theorem shared_of_acquire? (h : l.acquire? who mode = some m) (hh : l.Holds i md) :
    mode = .shared ∧ md = .shared := by
  cases mode with
  | exclusive => exact absurd hh (not_holds_of_acquire?_exclusive h)
  | shared =>
    cases md with
    | exclusive => exact absurd hh (not_holds_exclusive_of_acquire? h)
    | shared => exact ⟨rfl, rfl⟩

theorem nodup_of_acquire? (h : l.acquire? who mode = some m) (hl : l.Nodup)
    (hw : ∀ md, ¬ l.Holds who md) : m.Nodup := by
  cases l with
  | shared holders =>
    cases mode with
    | shared =>
      cases h
      exact List.nodup_cons.mpr ⟨hw .shared, hl⟩
    | exclusive =>
      cases holders with
      | nil =>
        cases h
        trivial
      | cons _ _ => cases h
  | exclusive holder => cases mode <;> cases h

/-- A lock that a call has given back is held by its other holders. -/
theorem holds_release (hl : l.Nodup) : (l.release who).Holds i md ↔ l.Holds i md ∧ i ≠ who := by
  cases l with
  | shared holders =>
    cases md with
    | shared => simp only [release, Holds, List.Nodup.mem_erase_iff hl, and_comm]
    | exclusive => simp [release, Holds]
  | exclusive holder =>
    by_cases he : holder = who
    · subst he
      cases md <;> simp [release, Holds, free]
    · cases md
      · simp [release, he, Holds]
      · simp only [release, he, if_false, Holds, iff_self_and]
        rintro rfl
        exact he

theorem nodup_release (hl : l.Nodup) : (l.release who).Nodup := by
  cases l with
  | shared holders => exact List.Nodup.erase who hl
  | exclusive holder =>
    simp only [release]
    split
    · exact nodup_free
    · trivial

/-- A lock that is held alone is held by nobody else. -/
theorem Holds.unique (h : l.Holds i .exclusive) (hw : l.Holds who mode) :
    who = i ∧ mode = .exclusive := by
  cases l with
  | shared holders => simp [Holds] at h
  | exclusive holder =>
    cases mode with
    | shared => simp [Holds] at hw
    | exclusive => exact ⟨hw.trans h.symm, rfl⟩

/-- A lock that does not leave room for one more has a holder. -/
theorem exists_holds_of_not_admits (h : l.admits mode = false) : ∃ i md, l.Holds i md := by
  cases l with
  | shared holders =>
    cases mode with
    | shared => cases h
    | exclusive =>
      cases holders with
      | nil => cases h
      | cons i _ => exact ⟨i, .shared, List.mem_cons_self⟩
  | exclusive holder => exact ⟨holder, .exclusive, rfl⟩

end Lock

/-! ### Locks by position -/

/-- The locks an allocation holds, latest first. -/
def Allocation.held (a : Allocation) : Phase → List (LockName × Mode)
  | .lockRegistry b | .unlockContent b _ | .abandonContent b _ => [(.content b, .exclusive)]
  | .lockTable b | .enlist b _ | .unlockRegistry b _ =>
    [(.registry a.registry, .exclusive), (.content b, .exclusive)]
  | .reserve b | .draw b | .insert b _ | .unlockTable b _ | .abandonRegistry b _ =>
    [(.table a.table, .exclusive), (.registry a.registry, .exclusive), (.content b, .exclusive)]
  | .abandonTable b _ => [(.table a.table, .exclusive), (.content b, .exclusive)]
  | _ => []

/-- The locks a free holds, latest first. -/
def Removal.held (f : Removal) : Phase → List (LockName × Mode)
  | .lockTable => [(.registry f.registry, .exclusive)]
  | .find | .checkOwner _ | .lockContent _ | .missRegistry _ =>
    [(.table f.table, .exclusive), (.registry f.registry, .exclusive)]
  | .erase b | .forget b | .unlockRegistry b =>
    [(.content b, .exclusive), (.table f.table, .exclusive), (.registry f.registry, .exclusive)]
  | .unlockTable b => [(.content b, .exclusive), (.table f.table, .exclusive)]
  | .dispose b | .unlockContent b => [(.content b, .exclusive)]
  | .missTable _ => [(.table f.table, .exclusive)]
  | _ => []

/-- The locks a teardown holds, latest first. -/
def Teardown.held (d : Teardown) : Phase → List (LockName × Mode)
  | .lockTable => [(.registry d.registry, .exclusive)]
  | .close | .drain _ | .find _ _ | .reportMissing _ _ | .lockContent _ _ _ | .unlockRegistry _ =>
    [(.table d.table, .exclusive), (.registry d.registry, .exclusive)]
  | .erase _ b _ | .dispose _ b _ | .unlockContent _ b _ =>
    [(.content b, .exclusive), (.table d.table, .exclusive), (.registry d.registry, .exclusive)]
  | .unlockTable _ => [(.table d.table, .exclusive)]
  | _ => []

/-- The locks a lookup holds, latest first. -/
def Lookup.held (l : Lookup) : Phase → List (LockName × Mode)
  | .find | .lockContent _ | .missTable => [(.table l.table, .shared)]
  | .unlockTable b => [(.content b, l.mode), (.table l.table, .shared)]
  | .count b => [(.content b, l.mode)]
  | .ended (.guard g) => [(.content g.handle.storage, g.mode)]
  | _ => []

/-- The lock an access through a handle holds. -/
def Access.held (a : Access) : Phase → List (LockName × Mode)
  | .check | .unlockReleased => [(.content a.handle.storage, a.mode)]
  | .ended (.guard g) => [(.content g.handle.storage, g.mode)]
  | _ => []

/-- The lock a question to a table holds. -/
def Inspection.held (i : Inspection) : Phase → List (LockName × Mode)
  | .read | .unlockTable _ => [(.table i.table, .shared)]
  | _ => []

/-- The lock a direct use of a registry holds. -/
def RosterCall.held (c : RosterCall) : Phase → List (LockName × Mode)
  | .act | .unlock _ => [(.registry c.registry, .exclusive)]
  | _ => []

/-- The locks a job holds, latest first. -/
def Job.held : Job → List (LockName × Mode)
  | .attaching _ _ | .drawing _ _ => []
  | .allocating a phase => a.held phase
  | .freeing f phase => f.held phase
  | .tearingDown d phase => d.held phase
  | .lookingUp l phase => l.held phase
  | .accessing a phase => a.held phase
  | .inspecting i phase => i.held phase
  | .editing c phase => c.held phase

/-- The locks a call holds: those of its job, until its guard is dropped. -/
def Call.held (call : Call) : List (LockName × Mode) := if call.dropped then [] else call.job.held

/-- Whether the position of a call says that it holds a lock. -/
def Service.Holds (s : Service) (i : CallRef) (name : LockName) (mode : Mode) : Prop :=
  ∃ call, s.calls[i]? = some call ∧ (name, mode) ∈ call.held

/-! ### Locks from step to step -/

/-- Whether the locks held by position change as a step says: what is taken had not been held, what
is given back is held no longer, and nothing else changes. -/
def Instr.Locks {σ : Type} (held : σ → List (LockName × Mode)) (before : List (LockName × Mode)) :
    Instr σ → Prop
  | acquire name mode next => held next = (name, mode) :: before ∧ ∀ m, (name, m) ∉ before
  | tryAcquire name mode taken busy =>
    held taken = (name, mode) :: before ∧ (∀ m, (name, m) ∉ before) ∧ held busy = before
  | release name next => held next = before.filter fun h ↦ h.1 ≠ name
  | instr => instr.Always fun x ↦ held x = before

theorem Instr.locks_map {σ τ : Type} (f : σ → τ) (held : τ → List (LockName × Mode))
    (before : List (LockName × Mode)) (instr : Instr σ) :
    (instr.map f).Locks held before ↔ instr.Locks (fun x ↦ held (f x)) before := by
  cases instr <;> rfl

theorem Progress.map_eq_next {σ τ : Type} {f : σ → τ} {p : Progress σ} {instr : Instr τ} :
    p.map f = .next instr ↔ ∃ step, p = .next step ∧ step.map f = instr := by
  cases p <;> simp [Progress.map]

theorem Allocation.locks {a : Allocation} {phase : Phase} {instr : Instr Phase}
    (h : a.progress phase = .next instr) : instr.Locks a.held (a.held phase) := by
  cases phase with
  | checkLimits =>
    cases h
    intro limits
    dsimp only
    split <;> rfl
  | _ => cases h <;> simp [Instr.Locks, Instr.Always, held]

theorem Removal.locks {f : Removal} {phase : Phase} {instr : Instr Phase}
    (h : f.progress phase = .next instr) : instr.Locks f.held (f.held phase) := by
  cases phase with
  | find =>
    cases h
    intro index
    dsimp only
    split <;> rfl
  | checkOwner b =>
    cases h
    intro roster
    dsimp only
    split <;> rfl
  | _ => cases h <;> simp [Instr.Locks, Instr.Always, held]

theorem Teardown.held_resume (d : Teardown) (s : Sweep) :
    d.held (.resume s) = [(.table d.table, .exclusive), (.registry d.registry, .exclusive)] := by
  unfold Phase.resume
  split <;> rfl

theorem Teardown.locks {d : Teardown} {phase : Phase} {instr : Instr Phase}
    (h : d.progress phase = .next instr) : instr.Locks d.held (d.held phase) := by
  cases phase with
  | find key s =>
    cases h
    intro index
    dsimp only
    split <;> rfl
  | drain first =>
    cases h
    exact fun keys ↦ held_resume d _
  | reportMissing key s =>
    cases h
    exact held_resume d _
  | unlockContent key b s =>
    cases h
    simp only [Instr.Locks]
    rw [held_resume]
    simp [held]
  | countReleased s =>
    cases h
    simp only [Instr.Locks, Instr.Always]
    split <;> rfl
  | _ => cases h <;> simp [Instr.Locks, Instr.Always, held]

theorem Lookup.locks {l : Lookup} {phase : Phase} {instr : Instr Phase}
    (h : l.progress phase = .next instr) : instr.Locks l.held (l.held phase) := by
  cases phase with
  | find =>
    cases h
    intro index
    dsimp only
    split <;> rfl
  | _ => cases h <;> simp [Instr.Locks, Instr.Always, held]

theorem Access.locks {a : Access} {phase : Phase} {instr : Instr Phase}
    (h : a.progress phase = .next instr) : instr.Locks a.held (a.held phase) := by
  cases phase with
  | check =>
    cases h
    intro content
    dsimp only
    split <;> rfl
  | _ => cases h <;> simp [Instr.Locks, held]

theorem Inspection.locks {i : Inspection} {phase : Phase} {instr : Instr Phase}
    (h : i.progress phase = .next instr) : instr.Locks i.held (i.held phase) := by
  cases phase <;> cases h <;> simp [Instr.Locks, Instr.Always, held]

theorem RosterCall.locks {c : RosterCall} {phase : Phase} {instr : Instr Phase}
    (h : c.progress phase = .next instr) : instr.Locks c.held (c.held phase) := by
  cases phase with
  | act =>
    cases h
    unfold act
    split <;> simp [Instr.Locks, Instr.Always, held]
  | _ => cases h <;> simp [Instr.Locks, held]

theorem Attachment.locks {a : Attachment} {phase : Phase} {instr : Instr Phase}
    (h : a.progress phase = .next instr) : instr.Locks (fun _ ↦ []) [] := by
  cases phase with
  | start =>
    simp only [progress] at h
    split at h <;> cases h <;> simp [Instr.Locks, Instr.Always, enroll]
  | _ => cases h <;> simp [Instr.Locks, Instr.Always, enroll]

/-- The locks of a job change as its next step says. -/
theorem Job.locks {job : Job} {instr : Instr Job} (h : job.progress = .next instr) :
    instr.Locks held job.held := by
  cases job <;> obtain ⟨step, hp, rfl⟩ := Progress.map_eq_next.mp h <;> rw [Instr.locks_map]
  case attaching a phase => exact a.locks hp
  case allocating a phase => exact a.locks hp
  case freeing f phase => exact f.locks hp
  case tearingDown d phase => exact d.locks hp
  case lookingUp l phase => exact l.locks hp
  case accessing a phase => exact a.locks hp
  case inspecting i phase => exact i.locks hp
  case editing c phase => exact c.locks hp
  case drawing d phase =>
    cases phase <;> cases hp
    simp [Instr.Locks, Instr.Always, held]

/-- A request begins with no lock held. -/
theorem Job.held_of_ofRequest? {s : Store} {request : Request} {job : Job}
    (h : ofRequest? s request = some job) : job.held = [] := by
  cases ofRequest?_eq_some.mp h with
  | @roster r action hr =>
    cases action <;> simp only [RosterCall.start] <;> try rfl
    split <;> rfl
  | _ => rfl

/-- A job that has ended holds at most the content under the guard it ended with. -/
theorem Job.held_of_outcome? {job : Job} {o : Outcome} (h : job.outcome? = some o) :
    ∀ name mode, (name, mode) ∈ job.held →
      ∃ g, o = .guard g ∧ name = .content g.handle.storage ∧ mode = g.mode := by
  have hj : job.progress = .ended o := by
    unfold outcome? at h
    split at h
    · next p hp => rw [hp, Option.some.inj h]
    · cases h
  intro name mode hm
  cases job with
  | attaching a phase => simp [held] at hm
  | drawing d phase => simp [held] at hm
  | allocating a phase => cases phase <;> cases hj; simp [held, Allocation.held] at hm
  | freeing f phase => cases phase <;> cases hj; simp [held, Removal.held] at hm
  | tearingDown d phase => cases phase <;> cases hj; simp [held, Teardown.held] at hm
  | inspecting i phase => cases phase <;> cases hj; simp [held, Inspection.held] at hm
  | editing c phase => cases phase <;> cases hj; simp [held, RosterCall.held] at hm
  | lookingUp l phase =>
    cases phase <;> cases hj
    cases o <;> simp [held, Lookup.held] at hm
    exact ⟨_, rfl, hm.1, hm.2⟩
  | accessing a phase =>
    cases phase <;> cases hj
    cases o <;> simp [held, Access.held] at hm
    exact ⟨_, rfl, hm.1, hm.2⟩

/-- A step takes one lock, gives one back, or leaves all locks alone. -/
theorem Instr.lock_cases {σ : Type} {held : σ → List (LockName × Mode)}
    {before : List (LockName × Mode)} {instr : Instr σ} {supply : Supply} {who : CallRef}
    {s s' : Store} {x : σ} (hk : instr.Locks held before)
    (hr : instr.run supply who s = some (x, s')) :
    (∃ name mode l, (s.lockOf name).acquire? who mode = some l ∧
      (∀ other, s'.lockOf other = if name = other then l else s.lockOf other) ∧
      held x = (name, mode) :: before ∧ ∀ m, (name, m) ∉ before) ∨
    (∃ name, (∀ other, s'.lockOf other =
        if name = other then (s.lockOf other).release who else s.lockOf other) ∧
      held x = before.filter fun h ↦ h.1 ≠ name) ∨
    ((∀ name, s'.lockOf name = s.lockOf name) ∧ held x = before) := by
  have hc := changes_of_run hr
  cases instr with
  | acquire name mode next =>
    obtain ⟨hn, l, hl, rfl, rfl⟩ := run_acquire.mp hr
    exact .inl ⟨name, mode, l, hl, fun other ↦ Store.lockOf_setLock hn other l, hk⟩
  | tryAcquire name mode taken busy =>
    obtain ⟨hn, ⟨l, hl, rfl, rfl⟩ | ⟨-, rfl, rfl⟩⟩ := run_tryAcquire.mp hr
    · exact .inl ⟨name, mode, l, hl, fun other ↦ Store.lockOf_setLock hn other l, hk.1, hk.2.1⟩
    · exact .inr (.inr ⟨fun _ ↦ rfl, hk.2.2⟩)
  | release name next =>
    obtain ⟨-, rfl, -⟩ := run_release.mp hr
    exact .inr (.inl ⟨name, hc.lock, hk⟩)
  | _ =>
    refine .inr (.inr ⟨hc.lock, Always.of_run (P := fun x ↦ held x = before) ?_ hr⟩)
    exact hk

/-! ### The holders of every lock -/

namespace Service

/-- The holders of every lock are the calls whose positions say so. -/
structure Locked (s : Service) : Prop where
  holds_iff : ∀ name i mode, (s.store.lockOf name).Holds i mode ↔ s.Holds i name mode
  nodup : ∀ name, (s.store.lockOf name).Nodup
  /-- Only a call that has ended has had a guard to drop. -/
  ended : ∀ (i : CallRef) (call : Call),
    s.calls[i]? = some call → call.dropped = true → call.job.outcome?.isSome

theorem lockOf_withTables (limits : List Limits) (name : LockName) :
    (withTables limits).store.lockOf name = .free := by
  cases name with
  | table t =>
    cases h : limits[t]? <;> simp [withTables, Store.withTables, Store.lockOf, Store.lock?, h]
  | registry r => rfl
  | content b => rfl

theorem locked_withTables (limits : List Limits) : (withTables limits).Locked where
  holds_iff name i mode := by
    rw [lockOf_withTables]
    simp [Holds, withTables]
  nodup name := by
    rw [lockOf_withTables]
    exact Lock.nodup_free
  ended i call h := by simp [withTables] at h

/-- A call under way has dropped no guard. -/
theorem Locked.not_dropped {s : Service} (hs : s.Locked) {i : CallRef} {call : Call}
    {instr : Instr Job} (hc : s.calls[i]? = some call) (hp : call.job.progress = .next instr) :
    call.dropped = false := by
  cases hd : call.dropped with
  | false => rfl
  | true =>
    have ho := hs.ended i call hc hd
    simp [Job.outcome?, hp] at ho

/-- Of two calls one of which holds a lock alone, only that one holds it. -/
theorem Locked.unique {s : Service} (hs : s.Locked) {i j : CallRef} {name : LockName} {mode : Mode}
    (hi : s.Holds i name .exclusive) (hj : s.Holds j name mode) : j = i ∧ mode = .exclusive :=
  ((hs.holds_iff name i .exclusive).mpr hi).unique ((hs.holds_iff name j mode).mpr hj)

/-- What a job has locked, its call holds, unless it has ended. -/
theorem Locked.holds_of_held {s : Service} (hs : s.Locked) {i : CallRef} {job : Job}
    (hj : s.job? i = some job) {name : LockName} {mode : Mode} (hn : ∀ b, name ≠ .content b)
    (hh : (name, mode) ∈ job.held) : s.Holds i name mode := by
  obtain ⟨call, hc, rfl⟩ := job?_eq_some.mp hj
  refine ⟨call, hc, ?_⟩
  cases hd : call.dropped with
  | false => simpa [Call.held, hd] using hh
  | true =>
    obtain ⟨o, ho⟩ := Option.isSome_iff_exists.mp (hs.ended i call hc hd)
    obtain ⟨g, -, rfl, -⟩ := Job.held_of_outcome? ho name mode hh
    exact absurd rfl (hn _)

theorem holds_modify {s : Service} {store : Store} {i j : CallRef} {f : Call → Call} {call : Call}
    (hc : s.calls[i]? = some call) {name : LockName} {mode : Mode} :
    Holds ⟨store, s.calls.modify i f⟩ j name mode ↔
      if i = j then (name, mode) ∈ (f call).held else s.Holds j name mode := by
  simp only [Holds, getElem?_calls_modify hc]
  split <;> simp

/-- A step of one call changes nothing about what another call holds. -/
theorem Does.holds_kept {supply : Supply} {s s' : Service} {i j : CallRef}
    (hd : s.Does supply (.step i) s') (hne : i ≠ j) {name : LockName} {mode : Mode} :
    s'.Holds j name mode ↔ s.Holds j name mode := by
  cases hd with
  | step hc hn hr => rw [holds_modify hc, if_neg hne]
  | tend hk _ => cases hk

/-- A step of one call keeps the account of who holds what. -/
private theorem Locked.step {supply : Supply} {s : Service} (hs : s.Locked) {i : CallRef}
    {call : Call} {instr : Instr Job} {job : Job} {store : Store} (hc : s.calls[i]? = some call)
    (hp : call.job.progress = .next instr) (hr : instr.run supply i s.store = some (job, store)) :
    Locked ⟨store, s.calls.modify i fun call ↦ { call with job }⟩ := by
  have hd := hs.not_dropped hc hp
  have hheld : call.held = call.job.held := by simp [Call.held, hd]
  have hheld' : Call.held { call with job } = job.held := by simp [Call.held, hd]
  have hi (name : LockName) (mode : Mode) : s.Holds i name mode ↔ (name, mode) ∈ call.job.held := by
    simp [Holds, hc, hheld]
  have hended : ∀ (j : CallRef) (c : Call),
      (s.calls.modify i fun call ↦ { call with job })[j]? = some c →
        c.dropped = true → c.job.outcome?.isSome := by
    intro j c hj hdrop
    rw [getElem?_calls_modify hc] at hj
    split at hj
    · cases hj
      simp [hd] at hdrop
    · exact hs.ended j c hj hdrop
  obtain ⟨name, mode, l, hl, hlock, hnew, hfree⟩ | ⟨name, hlock, hnew⟩ | ⟨hlock, hnew⟩ :=
    Instr.lock_cases (Job.locks hp) hr
  · -- The lock had not been held by this call, so nobody holds it twice.
    have hnot (m : Mode) : ¬ (s.store.lockOf name).Holds i m := by
      rw [hs.holds_iff, hi]
      exact hfree m
    refine ⟨fun other j m ↦ ?_, fun other ↦ ?_, hended⟩
    · rw [hlock, holds_modify hc, hheld', hnew, ← hs.holds_iff]
      by_cases he : name = other
      · subst he
        rw [if_pos rfl, Lock.holds_of_acquire? hl]
        split
        · next hij =>
          subst hij
          simp [hnot, hfree]
        · next hij => simp [Ne.symm hij]
      · rw [if_neg he]
        split
        · next hij =>
          subst hij
          rw [hs.holds_iff, hi]
          simp [Ne.symm he]
        · rfl
    · rw [hlock]
      split
      · exact Lock.nodup_of_acquire? hl (hs.nodup name) hnot
      · exact hs.nodup other
  · refine ⟨fun other j m ↦ ?_, fun other ↦ ?_, hended⟩
    · rw [hlock, holds_modify hc, hheld', hnew, ← hs.holds_iff]
      by_cases he : name = other
      · subst he
        rw [if_pos rfl, Lock.holds_release (hs.nodup name)]
        split
        · next hij => simp [hij]
        · next hij => simp [Ne.symm hij]
      · rw [if_neg he]
        split
        · next hij =>
          subst hij
          rw [hs.holds_iff, hi]
          simp [Ne.symm he]
        · rfl
    · rw [hlock]
      split
      · exact Lock.nodup_release (hs.nodup other)
      · exact hs.nodup other
  · refine ⟨fun other j m ↦ ?_, fun other ↦ ?_, hended⟩
    · rw [hlock, holds_modify hc, hheld', hnew, hs.holds_iff]
      split
      · next hij => rw [← hij, hi]
      · rfl
    · rw [hlock]
      exact hs.nodup other

/-- The holders of every lock are known after every action. -/
theorem Locked.of_does {supply : Supply} {s s' : Service} {action : Action} (hs : s.Locked)
    (hd : s.Does supply action s') : s'.Locked := by
  cases hd with
  | step hc hp hr => exact hs.step hc hp hr
  | @invoke request job hj =>
    have hn : Call.held { job } = [] := by simp [Call.held, Job.held_of_ofRequest? hj]
    refine ⟨fun name i mode ↦ ?_, hs.nodup, fun i c hc hdrop ↦ ?_⟩
    · rw [hs.holds_iff]
      simp only [Holds, Array.getElem?_push]
      split
      · next he => simp [he, hn]
      · rfl
    · rw [Array.getElem?_push] at hc
      split at hc
      · cases hc
        cases hdrop
      · exact hs.ended i c hc hdrop
  | @drop i call g hc hg hb =>
    obtain ⟨hdrop, ho⟩ := Call.guard?_eq_some.mp hg
    refine ⟨fun name j mode ↦ ?_, fun name ↦ ?_, fun j c hj hdrop ↦ ?_⟩
    · have hnew : Call.held { call with dropped := true } = [] := by simp [Call.held]
      have hold : call.held = call.job.held := by simp [Call.held, hdrop]
      rw [Store.lockOf_setLock hb, holds_modify hc, hnew]
      by_cases hij : i = j
      · -- What the call held is the content it gives back.
        subst hij
        rw [if_pos rfl]
        simp only [List.not_mem_nil, iff_false]
        split
        · rw [Lock.holds_release (hs.nodup _)]
          exact fun h ↦ h.2 rfl
        · next hne =>
          rw [hs.holds_iff]
          rintro ⟨c, hi, hm⟩
          cases hc.symm.trans hi
          rw [hold] at hm
          obtain ⟨g', hg', hn, -⟩ := Job.held_of_outcome? ho name mode hm
          cases hg'
          exact hne hn.symm
      · rw [if_neg hij]
        split
        · next he =>
          subst he
          rw [Lock.holds_release (hs.nodup _), hs.holds_iff]
          exact and_iff_left (Ne.symm hij)
        · exact hs.holds_iff name j mode
    · rw [Store.lockOf_setLock hb]
      split
      · exact Lock.nodup_release (hs.nodup _)
      · exact hs.nodup name
    · rw [getElem?_calls_modify hc] at hj
      split at hj
      · cases hj
        simp [ho]
      · exact hs.ended j c hj hdrop
  | edit hw | swap hw =>
    exact ⟨fun name i mode ↦ by rw [hw.lockOf]; exact hs.holds_iff name i mode,
      fun name ↦ by rw [hw.lockOf]; exact hs.nodup name, hs.ended⟩
  | tend _ ha =>
    exact ⟨fun name i mode ↦ by rw [ha.lock]; exact hs.holds_iff name i mode,
      fun name ↦ by rw [ha.lock]; exact hs.nodup name, hs.ended⟩

/-- In every reachable service the holders of every lock are the calls whose positions say so. -/
theorem Reachable.locked {limits : List Limits} {s : Service} (hr : Reachable limits s) :
    s.Locked :=
  hr.induct (locked_withTables limits) fun _ _ _ _ hs _ h ↦ hs.of_does (does_of_act? h)

end Service

end SessionBuffers
