import SessionBuffers.Proofs.Sequence

/-!
# What one call leaves behind

A call that works with one registry and one table changes nothing but these two, contents, locks
and the log. `Aftermath` says all of what is then there, `Store.Becomes` that there is nothing else
that has changed, and `Job.Reaches` follows a job by itself from step to step.
-/

namespace SessionBuffers

/-- What there is after some steps of one call: at its table, at its registry, of storage and of
locks, with what it has counted at its table and what it has logged. -/
@[ext] structure Aftermath where
  index : Index
  nextId : BufferId
  roster : Roster
  /-- The number of storages. -/
  storages : Nat
  content : StorageRef → Content
  lock : LockName → Lock
  adds : Counter → UInt64
  logs : List Event

namespace Aftermath

/-- The same with another index. -/
@[simps -fullyApplied] def withIndex (a : Aftermath) (index : Index) : Aftermath := { a with index }

/-- The same with another roster. -/
@[simps -fullyApplied] def withRoster (a : Aftermath) (roster : Roster) : Aftermath :=
  { a with roster }

/-- The same with one lock replaced. -/
@[simps -fullyApplied] def withLock (a : Aftermath) (name : LockName) (l : Lock) : Aftermath :=
  { a with lock := Function.update a.lock name l }

/-- The same with one content replaced. -/
@[simps -fullyApplied] def withContent (a : Aftermath) (b : StorageRef) (c : Content) : Aftermath :=
  { a with content := Function.update a.content b c }

/-- The same with one more storage. -/
@[simps -fullyApplied] def withStorage (a : Aftermath) (c : Content) : Aftermath :=
  { a with storages := a.storages + 1, content := Function.update a.content a.storages c }

/-- The same with one more number drawn. -/
@[simps -fullyApplied] def drawn (a : Aftermath) : Aftermath :=
  { a with nextId := ⟨a.nextId.number + 1⟩ }

/-- The same with a counter advanced. -/
@[simps -fullyApplied] def counted (a : Aftermath) (which : Counter) (amount : UInt64) :
    Aftermath :=
  { a with adds := fun other ↦ a.adds other + if which = other then amount else 0 }

/-- The same with one more event. -/
@[simps -fullyApplied] def logged (a : Aftermath) (event : Event) : Aftermath :=
  { a with logs := a.logs ++ [event] }

/-- A lock that has been taken is as it was when it has been given back. -/
theorem withLock_withLock_of_eq {a : Aftermath} {name : LockName} {l m : Lock}
    (h : m = a.lock name) : (a.withLock name l).withLock name m = a := by
  refine Aftermath.ext rfl rfl rfl rfl rfl ?_ rfl rfl
  simp [h]

end Aftermath

namespace Store

/-- A lock that does not exist looks free. -/
theorem lockOf_of_not_has {s : Store} {name : LockName} (h : ¬ s.Has name) :
    s.lockOf name = .free := by
  have hnone : s.lock? name = none := by simpa [Has] using h
  rw [lockOf, hnone, Option.getD_none]

/-- A lock that has a state exists, and is in that state. -/
theorem has_of_lock? {s : Store} {name : LockName} {l : Lock} (h : s.lock? name = some l) :
    s.Has name ∧ s.lockOf name = l := by
  rw [Has, lockOf, h]
  exact ⟨rfl, rfl⟩

/-- The aftermath of a call that has done nothing. -/
@[simps -fullyApplied] def untouched (s : Store) (t : TableRef) (r : RegistryRef) : Aftermath where
  index := s.indexOf t
  nextId := s.nextIdOf t
  roster := s.rosterOf r
  storages := s.storages.size
  content := s.contentOf
  lock := s.lockOf
  adds _ := 0
  logs := []

/-- What a store becomes by some steps of one call that works with a table and a registry. -/
structure Becomes (s : Store) (who : CallRef) (t : TableRef) (r : RegistryRef) (a : Aftermath)
    (s' : Store) : Prop where
  limits : s'.tables.map Table.limits = s.tables.map Table.limits
  owners : s'.registries.map Registry.session = s.registries.map Registry.session
  sessions : s'.sessions = s.sessions
  storages : s'.storages.size = a.storages
  index : ∀ u, s'.indexOf u = if u = t then a.index else s.indexOf u
  nextId : ∀ u, s'.nextIdOf u = if u = t then a.nextId else s.nextIdOf u
  roster : ∀ q, s'.rosterOf q = if q = r then a.roster else s.rosterOf q
  content : ∀ b, s'.contentOf b = a.content b
  lock : ∀ name, s'.lockOf name = a.lock name
  counters : ∀ u which, (s'.countersOf u).get which =
    (s.countersOf u).get which + if u = t then a.adds which else 0
  log : s'.log.toList = s.log.toList ++ a.logs.map fun event ↦ (who, event)

end Store

namespace Instr

variable {σ : Type}

/-- Whether a step sets nothing up, leaves sessions alone, and changes no table and no registry but
the given ones. -/
def isAt (t : TableRef) (r : RegistryRef) : Instr σ → Bool
  | provide _ _ _ _ | enroll _ _ _ _ | .open _ _ _ | finish _ _ _ => false
  | draw u _ | insert u _ _ _ _ | erase u _ _ | count u _ _ _ => u == t
  | add q _ _ | remove q _ _ | drain q _ | close q _ => q == r
  | _ => true

/-- What a step makes of the aftermath of the steps before. -/
def after (who : CallRef) (t : TableRef) (r : RegistryRef) (instr : Instr σ) (a : Aftermath) :
    Aftermath where
  index := instr.onIndex t a.index
  nextId := instr.onNextId t a.nextId
  roster := instr.onRoster r a.roster
  storages := a.storages
  content b := instr.onContent b (a.content b)
  lock name := instr.onLock who name (a.lock name)
  adds which := a.adds which + instr.adds t which
  logs := a.logs ++ instr.logs

variable {instr : Instr σ} {t u : TableRef} {r q : RegistryRef}

/-- What a step leaves alone that is at a table and a registry. -/
private theorem kept_of_isAt (h : instr.isAt t r = true) :
    instr.makes = false ∧ (∀ sessions, instr.onSessions sessions = sessions) ∧
      (∀ u index, u ≠ t → instr.onIndex u index = index) ∧
      (∀ u id, u ≠ t → instr.onNextId u id = id) ∧
      (∀ q roster, q ≠ r → instr.onRoster q roster = roster) ∧
      ∀ u which, u ≠ t → instr.adds u which = 0 := by
  cases instr <;> simp only [isAt, beq_iff_eq, reduceCtorEq] at h <;>
    refine ⟨rfl, fun _ ↦ rfl, fun u _ hne ↦ ?_, fun u _ hne ↦ ?_, fun q _ hne ↦ ?_,
      fun u _ hne ↦ ?_⟩ <;>
    first
    | rfl
    | simp [onIndex, onNextId, onRoster, adds, h, Ne.symm hne]

/-- Giving up content is the only change of content, also where there is none. -/
private theorem contentOf_of_run {supply : Supply} {who : CallRef} {s s' : Store} {x : σ}
    (hr : instr.run supply who s = some (x, s')) (hm : instr.makes = false) (b : StorageRef) :
    s'.contentOf b = instr.onContent b (s.contentOf b) := by
  have hsize := (sameFrame_of_run hr hm).storages
  by_cases hb : s.Has (.content b)
  · exact (changes_of_run hr).content b hb
  · have hnone {u : Store} (hu : ¬ u.Has (.content b)) : u.contentOf b = .gone := by
      rw [Store.has_content, Nat.not_lt] at hu
      simp [Store.contentOf, Array.getElem?_eq_none hu]
    have hb' : ¬ s'.Has (.content b) := by rwa [Store.has_content, hsize, ← Store.has_content]
    rw [hnone hb, hnone hb']
    cases instr with
    | dispose c next =>
      simp only [onContent]
      split <;> rfl
    | _ => rfl

end Instr

namespace Store

variable {s s' s'' : Store} {who : CallRef} {t : TableRef} {r : RegistryRef} {a : Aftermath}

theorem becomes_untouched (s : Store) (who : CallRef) (t : TableRef) (r : RegistryRef) :
    s.Becomes who t r (s.untouched t r) s where
  limits := rfl
  owners := rfl
  sessions := rfl
  storages := rfl
  index u := by
    split
    · next h => rw [h]; rfl
    · rfl
  nextId u := by
    split
    · next h => rw [h]; rfl
    · rfl
  roster q := by
    split
    · next h => rw [h]; rfl
    · rfl
  content _ := rfl
  lock _ := rfl
  counters u which := by simp [untouched]
  log := by simp [untouched]

namespace Becomes

theorem index_self (h : s.Becomes who t r a s') : s'.indexOf t = a.index := by
  rw [h.index, if_pos rfl]

theorem nextId_self (h : s.Becomes who t r a s') : s'.nextIdOf t = a.nextId := by
  rw [h.nextId, if_pos rfl]

theorem roster_self (h : s.Becomes who t r a s') : s'.rosterOf r = a.roster := by
  rw [h.roster, if_pos rfl]

theorem limitsOf (h : s.Becomes who t r a s') (u : TableRef) : s'.limitsOf u = s.limitsOf u := by
  have hat := congrArg (·[u]?) h.limits
  simp only [Array.getElem?_map] at hat
  rw [Store.limitsOf, hat, Store.limitsOf]

theorem sessionOf (h : s.Becomes who t r a s') (q : RegistryRef) :
    s'.sessionOf q = s.sessionOf q := by
  have hat := congrArg (·[q]?) h.owners
  simp only [Array.getElem?_map] at hat
  rw [Store.sessionOf, hat, Store.sessionOf]

theorem has_table (h : s.Becomes who t r a s') {u : TableRef} :
    s'.Has (.table u) ↔ s.Has (.table u) := by
  have hsize := congrArg Array.size h.limits
  rw [Store.has_table, Store.has_table]
  simp only [Array.size_map] at hsize
  rw [hsize]

theorem has_registry (h : s.Becomes who t r a s') {q : RegistryRef} :
    s'.Has (.registry q) ↔ s.Has (.registry q) := by
  have hsize := congrArg Array.size h.owners
  rw [Store.has_registry, Store.has_registry]
  simp only [Array.size_map] at hsize
  rw [hsize]

theorem has_content (h : s.Becomes who t r a s') {b : StorageRef} :
    s'.Has (.content b) ↔ b < a.storages := by
  rw [Store.has_content, h.storages]

/-- A lock is free when a call that has left all locks as they were has found it so. -/
theorem lock?_free {name : LockName} (h : s.Becomes who t r a s') (hlock : a.lock = s.lockOf)
    (hhas : s'.Has name) (hfree : s.lockOf name = .free) : s'.lock? name = some .free := by
  rw [Store.lock?_of_has hhas, h.lock, hlock, hfree]

/-- One more step, at the table and the registry of the call. -/
theorem step {σ : Type} {x : σ} {supply : Supply} {instr : Instr σ} (h : s.Becomes who t r a s')
    (hr : instr.run supply who s' = some (x, s'')) (hat : instr.isAt t r = true) :
    s.Becomes who t r (instr.after who t r a) s'' := by
  obtain ⟨hmakes, hsessions, hindex, hnext, hroster, hadds⟩ := Instr.kept_of_isAt hat
  have hc := Instr.changes_of_run hr
  have hf := Instr.sameFrame_of_run hr hmakes
  constructor
  case limits => exact hf.limits.trans h.limits
  case owners => exact hf.sessions.trans h.owners
  case sessions => rw [Instr.sessions_of_run hr, hsessions, h.sessions]
  case storages => exact hf.storages.trans h.storages
  case index =>
    intro u
    rw [hc.index, h.index]
    split
    · next he => rw [he]; rfl
    · next hne => exact hindex u _ hne
  case nextId =>
    intro u
    rw [hc.nextId, h.nextId]
    split
    · next he => rw [he]; rfl
    · next hne => exact hnext u _ hne
  case roster =>
    intro q
    rw [hc.roster, h.roster]
    split
    · next he => rw [he]; rfl
    · next hne => exact hroster q _ hne
  case content =>
    intro b
    rw [Instr.contentOf_of_run hr hmakes, h.content]
    rfl
  case lock =>
    intro name
    rw [hc.lock, h.lock]
    rfl
  case counters =>
    intro u which
    rw [Instr.counters_of_run hr, h.counters]
    split
    · next he => rw [he, UInt64.add_assoc]; rfl
    · next hne => rw [hadds u which hne, UInt64.add_zero]
  case log =>
    rw [Instr.log_of_run hr, h.log]
    simp [Instr.after]

/-- Storage is set up, behind everything that is there. -/
theorem provide (h : s.Becomes who t r a s') (user kernel : UInt64) :
    s.Becomes who t r (a.withStorage (.zeroed user kernel))
      { s' with storages := s'.storages.push { content := .zeroed user kernel } } where
  limits := h.limits
  owners := h.owners
  sessions := h.sessions
  storages := by rw [Array.size_push, h.storages]; rfl
  index := h.index
  nextId := h.nextId
  roster := h.roster
  content b := by
    by_cases hb : b = a.storages
    · subst hb
      simp [contentOf, ← h.storages]
    · simpa [contentOf, Array.getElem?_push, h.storages, hb] using h.content b
  lock name := (lockOf_push_storage s' _ rfl name).trans (h.lock name)
  counters := h.counters
  log := h.log

end Becomes

end Store

namespace Job

variable {supply : Supply} {who : CallRef} {t : TableRef} {r : RegistryRef}
  {job next last : Job} {instr : Instr Job} {s s' s'' : Store} {a : Aftermath} {m n : Nat}

theorem Walks.trans (h : Walks supply who m job s next s')
    (h' : Walks supply who n next s' last s'') : Walks supply who (n + m) job s last s'' := by
  induction h with
  | rest => exact h'
  | step hn hr _ ih => exact .step hn hr (ih h')

/-- Where a job comes by itself, and what it has made of the store by then. -/
def Reaches (supply : Supply) (who : CallRef) (t : TableRef) (r : RegistryRef) (job : Job)
    (s : Store) (last : Job) (a : Aftermath) (s' : Store) : Prop :=
  (∃ m, Walks supply who m job s last s') ∧ s.Becomes who t r a s'

theorem Reaches.rest (supply : Supply) (who : CallRef) (t : TableRef) (r : RegistryRef) (job : Job)
    (s : Store) : Reaches supply who t r job s job (s.untouched t r) s :=
  ⟨⟨0, .rest⟩, s.becomes_untouched who t r⟩

theorem Reaches.step (h : Reaches supply who t r job s next a s')
    (hn : next.progress = .next instr) (hr : instr.run supply who s' = some (last, s''))
    (hat : instr.isAt t r = true) :
    Reaches supply who t r job s last (instr.after who t r a) s'' := by
  obtain ⟨⟨m, hw⟩, hb⟩ := h
  exact ⟨⟨_, hw.trans (.step hn hr .rest)⟩, hb.step hr hat⟩

/-- The same aftermath, said in another way. -/
theorem Reaches.of_eq {a' : Aftermath} (h : Reaches supply who t r job s last a s')
    (ha : a = a') : Reaches supply who t r job s last a' s' := ha ▸ h

/-! ### Steps of a job by itself -/

namespace Reaches

variable {limited : Limits → Job} {drawn : BufferId → Job} {given : StorageRef → Job}
  {read : Index → Job} {checked : Roster → Job} {listed : List Key → Job} {told : Bool → Job}
  {fresh refused : Job} {user kernel amount : UInt64} {name : LockName} {key : Key}
  {b : StorageRef} {which : Counter} {event : Event}

/-- A step that neither counts nor logs. -/
private theorem step_of_silent {instr : Instr Job} {a' : Aftermath}
    (h : Reaches supply who t r job s next a s') (hn : next.progress = .next instr)
    (hr : instr.run supply who s' = some (last, s'')) (hat : instr.isAt t r = true)
    (hadds : ∀ which, instr.adds t which = 0) (hlogs : instr.logs = [])
    (ha : { a with
      index := instr.onIndex t a.index
      nextId := instr.onNextId t a.nextId
      roster := instr.onRoster r a.roster
      content := fun b ↦ instr.onContent b (a.content b)
      lock := fun name ↦ instr.onLock who name (a.lock name) } = a') :
    Reaches supply who t r job s last a' s'' := by
  have hstep := h.step hn hr hat
  simp only [Instr.after, hadds, UInt64.add_zero, hlogs, List.append_nil] at hstep
  exact ha ▸ hstep

theorem consult (h : Reaches supply who t r job s next a s')
    (hn : next.progress = .next (.consult t limited)) (ht : s.Has (.table t)) :
    Reaches supply who t r job s (limited (s.limitsOf t)) a s' := by
  rw [← h.2.limitsOf]
  exact h.step_of_silent hn (Instr.run_consult.mpr ⟨h.2.has_table.mpr ht, rfl, rfl⟩) rfl
    (fun _ ↦ rfl) rfl rfl

theorem provided (h : Reaches supply who t r job s next a s')
    (hn : next.progress = .next (.provide user kernel given last))
    (hs : supply.regions user kernel = true) :
    ∃ s'', Reaches supply who t r job s (given a.storages) (a.withStorage (.zeroed user kernel))
      s'' := by
  obtain ⟨⟨m, hw⟩, hb⟩ := h
  refine ⟨_, ⟨_, hw.trans (.step hn (Instr.run_provide.mpr (.inl ⟨hs, ?_, rfl⟩)) .rest)⟩,
    hb.provide user kernel⟩
  rw [hb.storages]

theorem unprovided (h : Reaches supply who t r job s next a s')
    (hn : next.progress = .next (.provide user kernel given last))
    (hs : supply.regions user kernel = false) : Reaches supply who t r job s last a s' := by
  obtain ⟨⟨m, hw⟩, hb⟩ := h
  exact ⟨⟨_, hw.trans (.step hn (Instr.run_provide.mpr (.inr ⟨hs, rfl, rfl⟩)) .rest)⟩, hb⟩

theorem reserved (h : Reaches supply who t r job s next a s')
    (hn : next.progress = .next (.reserve r user kernel last refused)) (hr : s.Has (.registry r))
    (hs : supply.slot user kernel = true) : Reaches supply who t r job s last a s' :=
  h.step_of_silent hn (Instr.run_reserve.mpr ⟨h.2.has_registry.mpr hr, .inl ⟨hs, rfl⟩, rfl⟩) rfl
    (fun _ ↦ rfl) rfl rfl

theorem unreserved (h : Reaches supply who t r job s next a s')
    (hn : next.progress = .next (.reserve r user kernel fresh last)) (hr : s.Has (.registry r))
    (hs : supply.slot user kernel = false) : Reaches supply who t r job s last a s' :=
  h.step_of_silent hn (Instr.run_reserve.mpr ⟨h.2.has_registry.mpr hr, .inr ⟨hs, rfl⟩, rfl⟩) rfl
    (fun _ ↦ rfl) rfl rfl

/-- What a step makes of one lock or of one content, as a change at one place. -/
private theorem ite_eq_update {α β : Type} [DecidableEq α] (f : β → β) (g : α → β) (x : α) :
    (fun y ↦ if x = y then f (g y) else g y) = Function.update g x (f (g x)) := by
  funext y
  by_cases he : x = y
  · subst he
    simp
  · simp [he, Function.update_of_ne (Ne.symm he)]

/-- What a step makes of the locks that is given one of them. -/
private theorem lock_taken {mode : Mode} {l : Lock}
    (hl : (a.lock name).acquire? who mode = some l) :
    (fun other ↦ if name = other then ((a.lock other).acquire? who mode).getD (a.lock other) else
      a.lock other) = Function.update a.lock name l := by
  have h := ite_eq_update (fun lock ↦ (lock.acquire? who mode).getD lock) a.lock name
  rwa [hl, Option.getD_some] at h

/-- A lock is taken, alone or together with others. -/
theorem acquireAs {mode : Mode} {l : Lock} (h : Reaches supply who t r job s next a s')
    (hn : next.progress = .next (.acquire name mode last)) (hhas : s'.Has name)
    (hl : (a.lock name).acquire? who mode = some l) :
    ∃ s'', Reaches supply who t r job s last (a.withLock name l) s'' := by
  have hat := h.2.lock name
  refine ⟨_, h.step_of_silent hn (Instr.run_acquire.mpr ⟨hhas, l, by rw [hat, hl], rfl, rfl⟩) rfl
    (fun _ ↦ rfl) rfl ?_⟩
  exact congrArg (fun lock ↦ { a with lock }) (lock_taken hl)

/-- A lock is taken that could have been found busy. -/
theorem tryAcquire (h : Reaches supply who t r job s next a s')
    (hn : next.progress = .next (.tryAcquire name .exclusive last refused)) (hhas : s'.Has name)
    (hl : a.lock name = .free) :
    ∃ s'', Reaches supply who t r job s last (a.withLock name (.exclusive who)) s'' := by
  have htaken : (a.lock name).acquire? who .exclusive = some (.exclusive who) := by
    rw [hl]
    rfl
  have hat := h.2.lock name
  refine ⟨_, h.step_of_silent hn (Instr.run_tryAcquire.mpr ⟨hhas, .inl ⟨_, by rw [hat, htaken], rfl,
    rfl⟩⟩) rfl (fun _ ↦ rfl) rfl ?_⟩
  exact congrArg (fun lock ↦ { a with lock }) (lock_taken htaken)

theorem acquire (h : Reaches supply who t r job s next a s')
    (hn : next.progress = .next (.acquire name .exclusive last)) (hhas : s'.Has name)
    (hl : a.lock name = .free) :
    ∃ s'', Reaches supply who t r job s last (a.withLock name (.exclusive who)) s'' :=
  h.acquireAs hn hhas (by rw [hl]; rfl)

theorem share {holders : List CallRef} (h : Reaches supply who t r job s next a s')
    (hn : next.progress = .next (.acquire name .shared last)) (hhas : s'.Has name)
    (hl : a.lock name = .shared holders) :
    ∃ s'', Reaches supply who t r job s last (a.withLock name (.shared (who :: holders))) s'' :=
  h.acquireAs hn hhas (by rw [hl]; rfl)

/-- A lock is given back, and those who share it keep it. -/
theorem releaseAs (h : Reaches supply who t r job s next a s')
    (hn : next.progress = .next (.release name last)) (hhas : s'.Has name) :
    ∃ s'', Reaches supply who t r job s last (a.withLock name ((a.lock name).release who)) s'' := by
  refine ⟨_, h.step_of_silent hn (Instr.run_release.mpr ⟨hhas, rfl, rfl⟩) rfl (fun _ ↦ rfl) rfl ?_⟩
  exact congrArg (fun lock ↦ { a with lock }) (ite_eq_update (·.release who) a.lock name)

theorem release (h : Reaches supply who t r job s next a s')
    (hn : next.progress = .next (.release name last)) (hhas : s'.Has name)
    (hl : a.lock name = .exclusive who) :
    ∃ s'', Reaches supply who t r job s last (a.withLock name .free) s'' := by
  have hfree : (a.lock name).release who = .free := by simp [hl, Lock.release]
  exact hfree ▸ h.releaseAs hn hhas

theorem draw (h : Reaches supply who t r job s next a s')
    (hn : next.progress = .next (.draw t drawn)) (ht : s.Has (.table t)) :
    ∃ s'', Reaches supply who t r job s (drawn a.nextId) a.drawn s'' := by
  rw [← h.2.nextId_self]
  exact ⟨_, h.step_of_silent hn (Instr.run_draw.mpr ⟨h.2.has_table.mpr ht, rfl, rfl⟩)
    (by simp [Instr.isAt]) (fun _ ↦ rfl) rfl
    (by simp [Instr.onIndex, Instr.onNextId, Instr.onRoster, Instr.onContent, Instr.onLock,
      Aftermath.drawn])⟩

theorem inserted (h : Reaches supply who t r job s next a s')
    (hn : next.progress = .next (.insert t key b last refused)) (ht : s.Has (.table t))
    (hk : a.index.contains key = false) :
    ∃ s'', Reaches supply who t r job s last (a.withIndex (a.index.insert key b)) s'' :=
  ⟨_, h.step_of_silent hn (Instr.run_insert.mpr ⟨h.2.has_table.mpr ht,
    .inr ⟨by rw [h.2.index_self, hk], rfl, rfl⟩⟩) (by simp [Instr.isAt]) (fun _ ↦ rfl) rfl
    (by simp [Instr.onIndex, Instr.onNextId, Instr.onRoster, Instr.onContent, Instr.onLock, hk,
      Aftermath.withIndex])⟩

theorem present (h : Reaches supply who t r job s next a s')
    (hn : next.progress = .next (.insert t key b fresh last)) (ht : s.Has (.table t))
    (hk : a.index.contains key = true) : Reaches supply who t r job s last a s' :=
  h.step_of_silent hn (Instr.run_insert.mpr ⟨h.2.has_table.mpr ht,
    .inl ⟨by rw [h.2.index_self, hk], rfl, rfl⟩⟩) (by simp [Instr.isAt]) (fun _ ↦ rfl) rfl
    (by simp [Instr.onIndex, Instr.onNextId, Instr.onRoster, Instr.onContent, Instr.onLock, hk])

theorem erase (h : Reaches supply who t r job s next a s')
    (hn : next.progress = .next (.erase t key last)) (ht : s.Has (.table t)) :
    ∃ s'', Reaches supply who t r job s last (a.withIndex (a.index.erase key)) s'' :=
  ⟨_, h.step_of_silent hn (Instr.run_erase.mpr ⟨h.2.has_table.mpr ht, rfl, rfl⟩)
    (by simp [Instr.isAt]) (fun _ ↦ rfl) rfl
    (by simp [Instr.onIndex, Instr.onNextId, Instr.onRoster, Instr.onContent, Instr.onLock,
      Aftermath.withIndex])⟩

theorem readIndex (h : Reaches supply who t r job s next a s')
    (hn : next.progress = .next (.readIndex t read)) (ht : s.Has (.table t)) :
    Reaches supply who t r job s (read a.index) a s' := by
  rw [← h.2.index_self]
  exact h.step_of_silent hn (Instr.run_readIndex.mpr ⟨h.2.has_table.mpr ht, rfl, rfl⟩) rfl
    (fun _ ↦ rfl) rfl rfl

theorem readRoster (h : Reaches supply who t r job s next a s')
    (hn : next.progress = .next (.readRoster r checked)) (hr : s.Has (.registry r)) :
    Reaches supply who t r job s (checked a.roster) a s' := by
  rw [← h.2.roster_self]
  exact h.step_of_silent hn (Instr.run_readRoster.mpr ⟨h.2.has_registry.mpr hr, rfl, rfl⟩) rfl
    (fun _ ↦ rfl) rfl rfl

theorem add (h : Reaches supply who t r job s next a s')
    (hn : next.progress = .next (.add r key last)) (hr : s.Has (.registry r)) :
    ∃ s'', Reaches supply who t r job s last (a.withRoster (a.roster.add key)) s'' :=
  ⟨_, h.step_of_silent hn (Instr.run_add.mpr ⟨h.2.has_registry.mpr hr, rfl, rfl⟩)
    (by simp [Instr.isAt]) (fun _ ↦ rfl) rfl
    (by simp [Instr.onIndex, Instr.onNextId, Instr.onRoster, Instr.onContent, Instr.onLock,
      Aftermath.withRoster])⟩

theorem remove (h : Reaches supply who t r job s next a s')
    (hn : next.progress = .next (.remove r key told)) (hr : s.Has (.registry r)) :
    ∃ s'', Reaches supply who t r job s (told (a.roster.contains key))
      (a.withRoster (a.roster.remove key)) s'' := by
  rw [← h.2.roster_self]
  exact ⟨_, h.step_of_silent hn (Instr.run_remove.mpr ⟨h.2.has_registry.mpr hr, rfl, rfl⟩)
    (by simp [Instr.isAt]) (fun _ ↦ rfl) rfl
    (by simp [Instr.onIndex, Instr.onNextId, Instr.onRoster, Instr.onContent, Instr.onLock,
      h.2.roster_self, Aftermath.withRoster])⟩

theorem close (h : Reaches supply who t r job s next a s')
    (hn : next.progress = .next (.close r told)) (hr : s.Has (.registry r)) :
    ∃ s'', Reaches supply who t r job s (told (!a.roster.closed)) (a.withRoster a.roster.close)
      s'' := by
  rw [← h.2.roster_self]
  exact ⟨_, h.step_of_silent hn (Instr.run_close.mpr ⟨h.2.has_registry.mpr hr, rfl, rfl⟩)
    (by simp [Instr.isAt]) (fun _ ↦ rfl) rfl
    (by simp [Instr.onIndex, Instr.onNextId, Instr.onRoster, Instr.onContent, Instr.onLock,
      h.2.roster_self, Aftermath.withRoster])⟩

theorem drain (h : Reaches supply who t r job s next a s')
    (hn : next.progress = .next (.drain r listed)) (hr : s.Has (.registry r)) :
    ∃ s'', Reaches supply who t r job s (listed a.roster.toList)
      (a.withRoster a.roster.drained) s'' := by
  rw [← h.2.roster_self]
  exact ⟨_, h.step_of_silent hn (Instr.run_drain.mpr ⟨h.2.has_registry.mpr hr, rfl, rfl⟩)
    (by simp [Instr.isAt]) (fun _ ↦ rfl) rfl
    (by simp [Instr.onIndex, Instr.onNextId, Instr.onRoster, Instr.onContent, Instr.onLock,
      h.2.roster_self, Aftermath.withRoster])⟩

theorem dispose (h : Reaches supply who t r job s next a s')
    (hn : next.progress = .next (.dispose b last)) (hb : b < a.storages) :
    ∃ s'', Reaches supply who t r job s last (a.withContent b .gone) s'' := by
  refine ⟨_, h.step_of_silent hn (Instr.run_dispose.mpr ⟨h.2.has_content.mpr hb, rfl, rfl⟩)
    rfl (fun _ ↦ rfl) rfl ?_⟩
  exact congrArg (fun content ↦ { a with content }) (ite_eq_update (fun _ ↦ .gone) a.content b)

theorem count (h : Reaches supply who t r job s next a s')
    (hn : next.progress = .next (.count t which amount last)) (ht : s.Has (.table t)) :
    ∃ s'', Reaches supply who t r job s last (a.counted which amount) s'' := by
  have hstep := h.step hn (Instr.run_count.mpr ⟨h.2.has_table.mpr ht, rfl, rfl⟩)
    (by simp [Instr.isAt])
  simp only [Instr.after, Instr.onIndex, Instr.onNextId, Instr.onRoster, Instr.onContent,
    Instr.onLock, Instr.adds, Instr.logs, true_and, List.append_nil] at hstep
  exact ⟨_, hstep⟩

theorem log (h : Reaches supply who t r job s next a s')
    (hn : next.progress = .next (.log event last)) :
    ∃ s'', Reaches supply who t r job s last (a.logged event) s'' := by
  have hstep := h.step hn (Instr.run_log.mpr ⟨rfl, rfl⟩) rfl
  simp only [Instr.after, Instr.onIndex, Instr.onNextId, Instr.onRoster, Instr.onContent,
    Instr.onLock, Instr.adds, Instr.logs, UInt64.add_zero] at hstep
  exact ⟨_, hstep⟩

end Reaches

end Job

namespace Service

variable {supply : Supply} {s : Service} {request : Request} {t : TableRef} {r : RegistryRef}
  {job last : Job} {a : Aftermath} {store : Store} {o : Outcome}

/-- A request comes to its outcome by the steps of its job. -/
theorem completes_of_reaches (ha : s.allows (.invoke request) = true)
    (hj : Job.ofRequest? s.store request = some job)
    (h : Job.Reaches supply s.calls.size t r job s.store last a store)
    (ho : last.outcome? = some o) :
    ∃ s', s.Completes supply request o s' ∧ s.store.Becomes s.calls.size t r a s'.store := by
  obtain ⟨⟨m, hw⟩, hb⟩ := h
  exact ⟨_, completes_of_walks ha hj hw ho, hb⟩

end Service

end SessionBuffers
