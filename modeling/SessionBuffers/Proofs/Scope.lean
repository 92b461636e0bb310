import SessionBuffers.Proofs.Sound

/-!
# Nothing is named that does not exist

Whatever a call under way names exists, so a step can only fail to be taken by having to wait: the
next step of a call can be taken exactly when the lock it wants, if any, has room for it
(`Reachable.isSome_step?`).
-/

namespace SessionBuffers

/-! ### What a step needs -/

namespace Instr

variable {σ τ : Type} {supply : Supply} {who : CallRef} {s s' : Store} {x : σ}

/-- Whether everything a step names exists. -/
def Needs (s : Store) : Instr σ → Prop
  | consult t _ | draw t _ | insert t _ _ _ _ | erase t _ _ | readIndex t _ | count t _ _ _ =>
    s.Has (.table t)
  | reserve r _ _ _ _ | readRoster r _ | add r _ _ | remove r _ _ | drain r _ | close r _ =>
    s.Has (.registry r)
  | readContent b _ | dispose b _ => s.Has (.content b)
  | acquire name _ _ | tryAcquire name _ _ _ | release name _ => s.Has name
  | finish c _ _ => s.sessions[c]?.isSome
  | provide _ _ _ _ | enroll _ _ _ _ | .open _ _ _ | log _ _ => True

/-- A step that names only what exists can be taken unless it has to wait for a lock. -/
theorem isSome_run (supply : Supply) (who : CallRef) {instr : Instr σ} (h : instr.Needs s) :
    (instr.run supply who s).isSome =
      match instr.wants with
      | some (name, mode) => (s.lockOf name).admits mode
      | none => true := by
  cases instr with
  | consult t next | draw t next | erase t key next | readIndex t next
  | count t which amount next =>
    obtain ⟨table, ht⟩ := Store.has_table_iff.mp h
    simp [run, wants, ht]
  | insert t key b fresh present =>
    obtain ⟨table, ht⟩ := Store.has_table_iff.mp h
    simp only [run, wants, ht, Option.bind_eq_bind, Option.bind_some, Option.pure_def,
      Option.isSome_some]
  | reserve r user kernel given refused | readRoster r next | add r key next | remove r key next
  | drain r next | close r next =>
    obtain ⟨registry, hr⟩ := Store.has_registry_iff.mp h
    simp [run, wants, hr]
  | readContent b next | dispose b next =>
    obtain ⟨storage, hb⟩ := Store.has_content_iff.mp h
    simp [run, wants, hb]
  | acquire name mode next =>
    simp only [run, wants, Store.acquire?, Store.lock?_of_has h, Option.bind_eq_bind,
      Option.bind_some, Option.pure_def]
    rw [← Lock.isSome_acquire? _ who]
    cases (s.lockOf name).acquire? who mode <;> rfl
  | tryAcquire name mode taken busy =>
    simp [run, wants, Store.lock?_of_has h]
  | release name next =>
    simp [run, wants, Store.release?, Store.lock?_of_has h]
  | finish c first again =>
    obtain ⟨session, hc⟩ := Option.isSome_iff_exists.mp h
    simp [run, wants, hc]
  | provide user kernel given refused =>
    simp only [run, wants]
    split <;> rfl
  | enroll session capacity given refused =>
    simp only [run, wants]
    split <;> rfl
  | «open» t r next => rfl
  | log event next => rfl

theorem needs_map (f : σ → τ) (instr : Instr σ) : (instr.map f).Needs s ↔ instr.Needs s := by
  cases instr <;> rfl

theorem wants_map (f : σ → τ) (instr : Instr σ) : (instr.map f).wants = instr.wants := by
  cases instr <;> rfl

theorem isSome_onSessions (instr : Instr σ) {sessions : Array Session} {c : SessionRef}
    (h : sessions[c]?.isSome) : (instr.onSessions sessions)[c]?.isSome := by
  rw [isSome_getElem?] at h ⊢
  cases instr with
  | «open» t r next => simpa [onSessions] using Nat.lt_succ_of_lt h
  | finish d first again => simpa [onSessions] using h
  | _ => exact h

/-- Sessions are only added, and the table and the registry of a session never change. -/
theorem getElem?_onSessions {instr : Instr σ} {sessions : Array Session} {c : SessionRef}
    {session : Session} (h : (instr.onSessions sessions)[c]? = some session) :
    (∃ before, sessions[c]? = some before ∧ session.table = before.table ∧
      session.registry = before.registry) ∨
    ∃ next, instr = .open session.table session.registry next := by
  cases instr with
  | «open» t r next =>
    simp only [onSessions, Array.getElem?_push] at h
    split at h
    · cases h
      exact .inr ⟨next, rfl⟩
    · exact .inl ⟨session, h, rfl, rfl⟩
  | finish d first again =>
    simp only [onSessions, Array.getElem?_modify] at h
    split at h
    · obtain ⟨before, hb, rfl⟩ := Option.map_eq_some_iff.mp h
      exact .inl ⟨before, hb, rfl, rfl⟩
    · exact .inl ⟨session, h, rfl, rfl⟩
  | _ => exact .inl ⟨session, h, rfl, rfl⟩

end Instr

/-! ### What a job names -/

/-- Whether the tables, registries and sessions that a job names exist, and the storage an access
is given. -/
def Job.Scoped (s : Store) : Job → Prop
  | attaching a phase => match phase with
    | .start => match a.purpose with
      | .alone _ => True
      | .table t | .session t => s.Has (.table t)
    | .enroll t _ => s.Has (.table t)
    | .count t r | .report t r | .open t r => s.Has (.table t) ∧ s.Has (.registry r)
    | .ended _ => True
  | allocating a _ => s.Has (.table a.table) ∧ s.Has (.registry a.registry)
  | freeing f _ => s.Has (.table f.table) ∧ s.Has (.registry f.registry)
  | tearingDown d phase => s.Has (.table d.table) ∧ s.Has (.registry d.registry) ∧
    ∀ c, phase = .finish c → s.sessions[c]?.isSome
  | lookingUp l _ => s.Has (.table l.table)
  | accessing a _ => s.Has (.content a.handle.storage)
  | inspecting i _ => s.Has (.table i.table)
  | editing c _ => s.Has (.registry c.registry)
  | drawing d _ => s.Has (.table d.table)

/-- Whether the table and the registry of every session exist. -/
def Store.SessionsScoped (s : Store) : Prop :=
  ∀ (c : SessionRef) (session : Session), s.sessions[c]? = some session →
    s.Has (.table session.table) ∧ s.Has (.registry session.registry)

section Step

variable {supply : Supply} {who : CallRef} {s s' : Store} {job job' : Job} {instr : Instr Job}

/-- What a job names still exists in a store that has more. -/
theorem Job.Scoped.mono (h : job.Scoped s) (hn : ∀ name, s.Has name → s'.Has name)
    (hc : ∀ c : SessionRef, s.sessions[c]?.isSome → s'.sessions[c]?.isSome) : job.Scoped s' := by
  cases job with
  | attaching a phase =>
    cases phase with
    | start =>
      simp only [Scoped] at h ⊢
      split
      · trivial
      · next hp =>
        rw [hp] at h
        exact hn _ h
      · next hp =>
        rw [hp] at h
        exact hn _ h
    | enroll t capacity => exact hn _ h
    | count t r | report t r | «open» t r => exact ⟨hn _ h.1, hn _ h.2⟩
    | ended o => trivial
  | allocating a phase | freeing f phase => exact ⟨hn _ h.1, hn _ h.2⟩
  | tearingDown d phase => exact ⟨hn _ h.1, hn _ h.2.1, fun c hp ↦ hc c (h.2.2 c hp)⟩
  | lookingUp l phase | accessing a phase | inspecting i phase | editing c phase
  | drawing d phase => exact hn _ h

/-- A session is marked as ended first or not at all. -/
theorem Teardown.not_finish_of_step {d : Teardown} {phase next : Teardown.Phase}
    {step : Instr Teardown.Phase} (hp : d.progress phase = .next step)
    (hr : step.run supply who s = some (next, s')) (c : SessionRef) : next ≠ .finish c := by
  have hres (sweep : Teardown.Sweep) : Teardown.Phase.resume sweep ≠ .finish c := by
    unfold Teardown.Phase.resume
    split <;> simp
  refine Instr.Always.of_run (P := fun next ↦ next ≠ .finish c) ?_ hr
  cases phase with
  | find key sweep =>
    cases hp
    intro index
    dsimp only
    split <;> simp
  | drain first =>
    cases hp
    exact fun keys ↦ hres _
  | reportMissing key sweep | unlockContent key b sweep =>
    cases hp
    exact hres _
  | countReleased sweep =>
    cases hp
    dsimp only [Instr.Always]
    split <;> simp
  | _ => cases hp <;> simp [Instr.Always]

private theorem scoped_attachment {a : Attachment} {phase : Attachment.Phase}
    {step : Instr Attachment.Phase} (h : Job.Scoped s (.attaching a phase))
    (hp : a.progress phase = .next step)
    (hr : (step.map (.attaching a)).run supply who s = some (job', s')) : job'.Scoped s' := by
  have hhas := (Instr.changes_of_run hr).has
  cases phase with
  | start =>
    simp only [Attachment.progress] at hp
    simp only [Job.Scoped] at h
    split at hp
    · cases hp
      obtain ⟨-, rfl, -⟩ | ⟨-, rfl, -⟩ := Instr.run_enroll.mp hr <;> trivial
    · next hpurpose =>
      cases hp
      obtain ⟨-, rfl, -⟩ := Instr.run_consult.mp hr
      rw [hpurpose] at h
      exact hhas _ h
    · next hpurpose =>
      cases hp
      obtain ⟨-, rfl, -⟩ := Instr.run_consult.mp hr
      rw [hpurpose] at h
      exact hhas _ h
  | enroll t capacity =>
    cases hp
    obtain ⟨-, rfl, rfl⟩ | ⟨-, rfl, -⟩ := Instr.run_enroll.mp hr
    · exact ⟨hhas _ h, by simp [Store.has_registry]⟩
    · trivial
  | count t r =>
    cases hp
    obtain ⟨-, rfl, -⟩ := Instr.run_count.mp hr
    exact ⟨hhas _ h.1, hhas _ h.2⟩
  | report t r =>
    cases hp
    obtain ⟨rfl, -⟩ := Instr.run_log.mp hr
    unfold Attachment.logged
    split
    · exact ⟨hhas _ h.1, hhas _ h.2⟩
    · trivial
  | «open» t r =>
    cases hp
    obtain ⟨rfl, -⟩ := Instr.run_open.mp hr
    trivial
  | ended o => cases hp

/-- After a step of its own, what a job names exists again. -/
theorem Job.Scoped.step (h : job.Scoped s) (hn : job.progress = .next instr)
    (hr : instr.run supply who s = some (job', s')) : job'.Scoped s' := by
  have hhas := (Instr.changes_of_run hr).has
  cases job with
  | attaching a phase =>
    obtain ⟨step, hp, rfl⟩ := Progress.map_eq_next.mp hn
    exact scoped_attachment h hp hr
  | tearingDown d phase =>
    obtain ⟨step, hp, rfl⟩ := Progress.map_eq_next.mp hn
    obtain ⟨next, hnext, rfl⟩ := Instr.run_map_eq_some.mp hr
    exact ⟨hhas _ h.1, hhas _ h.2.1, fun c hc ↦ absurd hc (Teardown.not_finish_of_step hp hnext c)⟩
  | allocating a phase | freeing f phase =>
    obtain ⟨step, hp, rfl⟩ := Progress.map_eq_next.mp hn
    obtain ⟨next, -, rfl⟩ := Instr.run_map_eq_some.mp hr
    exact ⟨hhas _ h.1, hhas _ h.2⟩
  | lookingUp l phase | accessing a phase | inspecting i phase | editing c phase
  | drawing d phase =>
    obtain ⟨step, hp, rfl⟩ := Progress.map_eq_next.mp hn
    obtain ⟨next, -, rfl⟩ := Instr.run_map_eq_some.mp hr
    exact hhas _ h

/-- Which jobs take a step that changes a roster, sets a session up or ends it, or counts
sessions. -/
def Instr.Origin (job : Job) : Instr Job → Prop
  | .open t r _ => ∃ a, job = .attaching a (.open t r)
  | .finish c _ _ => ∃ d, job = .tearingDown d (.finish c)
  | .close r _ => ∃ d, job = .tearingDown d .close ∧ d.registry = r
  | .add r key _ => (∃ a b, job = .allocating a (.enlist b key) ∧ a.registry = r) ∨
    ∃ c, job = .editing c .act ∧ c.registry = r ∧ c.action = .add key
  | .remove r key _ => (∃ f b, job = .freeing f (.forget b) ∧ f.registry = r ∧ f.key = key) ∨
    ∃ c, job = .editing c .act ∧ c.registry = r ∧ c.action = .remove key
  | .drain r _ => (∃ d first, job = .tearingDown d (.drain first) ∧ d.registry = r) ∨
    ∃ c, job = .editing c .act ∧ c.registry = r ∧ c.action = .drain
  | .count t which _ _ => (which = .sessionsOpened → ∃ a r, job = .attaching a (.count t r)) ∧
    (which = .sessionsClosed → ∃ d w, job = .tearingDown d (.countClosed w) ∧ d.table = t)
  | _ => True

theorem Job.origin (hn : job.progress = .next instr) : instr.Origin job := by
  cases job with
  | attaching a phase =>
    obtain ⟨step, hp, rfl⟩ := Progress.map_eq_next.mp hn
    cases phase with
    | start =>
      simp only [Attachment.progress] at hp
      split at hp <;> cases hp <;> trivial
    | _ => cases hp <;> simp [Attachment.enroll, Instr.map, Instr.Origin]
  | editing c phase =>
    obtain ⟨step, hp, rfl⟩ := Progress.map_eq_next.mp hn
    cases phase with
    | act =>
      cases hp
      unfold RosterCall.act
      split <;> simp [Instr.map, Instr.Origin, *]
    | _ => cases hp <;> trivial
  | _ _ phase =>
    obtain ⟨step, hp, rfl⟩ := Progress.map_eq_next.mp hn
    cases phase <;> cases hp <;> simp [Instr.map, Instr.Origin]

/-- The table and the registry of a session to be set up exist. -/
theorem Job.names_of_open {t : TableRef} {r : RegistryRef} {next : SessionRef → Job}
    (h : job.Scoped s) (hn : job.progress = .next (.open t r next)) :
    s.Has (.table t) ∧ s.Has (.registry r) := by
  obtain ⟨a, rfl⟩ := Job.origin hn
  exact h

/-- A request begins as a job that names only what exists. -/
theorem Job.scoped_of_ofRequest? {request : Request} (hs : s.SessionsScoped)
    (h : ofRequest? s request = some job) : job.Scoped s := by
  cases ofRequest?_eq_some.mp h with
  | @attach a ha =>
    simp only [Scoped]
    split
    · trivial
    · next t hp => exact ha t (.inl hp)
    · next t hp => exact ha t (.inr hp)
  | @endSession c session hc hr =>
    refine ⟨(hs c session hc).1, hr, fun d hd ↦ ?_⟩
    cases hd
    simp [hc]
  | allocate ht hr | free ht hr => exact ⟨ht, hr⟩
  | teardown ht hr => exact ⟨ht, hr, fun c hc ↦ by cases hc⟩
  | lookup ht | inspect ht | draw ht => exact ht
  | access hb => exact hb
  | roster hr => exact hr

/-- Everything the next step of a job names exists: what the job names, what it has locked, what it
has set up, and what it has found in an index. -/
theorem Job.needs (h : job.Scoped s) (hk : job.Knows s)
    (hh : ∀ {name mode}, (name, mode) ∈ job.held → s.Has name)
    (hm : ∀ {a b}, job.made? = some (a, b) → s.Has (.content b))
    (hi : ∀ {t : TableRef} {key : Key} {b : StorageRef}, (s.indexOf t)[key]? = some b →
      s.Has (.content b))
    (hn : job.progress = .next instr) : instr.Needs s := by
  cases job <;> obtain ⟨step, hp, rfl⟩ := Progress.map_eq_next.mp hn <;> rw [Instr.needs_map]
  case attaching a phase =>
    cases phase with
    | start =>
      simp only [Scoped] at h
      simp only [Attachment.progress] at hp
      split at hp <;> cases hp
      · trivial
      · next hpurpose =>
        rw [hpurpose] at h
        exact h
      · next hpurpose =>
        rw [hpurpose] at h
        exact h
    | count t r =>
      cases hp
      exact h.1
    | _ => cases hp <;> trivial
  case allocating a phase =>
    cases phase with
    | lockContent b =>
      cases hp
      exact hm rfl
    | unlockContent b key | abandonContent b key =>
      cases hp
      exact hh List.mem_cons_self
    | lockRegistry b | reserve b | unlockRegistry b key | abandonRegistry b why | enlist b key =>
      cases hp
      exact h.2
    | _ => cases hp <;> first | exact h.1 | trivial
  case freeing f phase =>
    cases phase with
    | lockContent b =>
      cases hp
      exact hi hk.1
    | dispose b | unlockContent b =>
      cases hp
      exact hh List.mem_cons_self
    | lockRegistry | checkOwner b | forget b | unlockRegistry b | missRegistry b =>
      cases hp
      exact h.2
    | _ => cases hp <;> first | exact h.1 | trivial
  case tearingDown d phase =>
    cases phase with
    | finish c =>
      cases hp
      exact h.2.2 c rfl
    | lockContent key b sweep =>
      cases hp
      exact hi hk
    | dispose key b sweep | unlockContent key b sweep =>
      cases hp
      exact hh List.mem_cons_self
    | lockRegistry | close | drain first | unlockRegistry sweep =>
      cases hp
      exact h.2.1
    | _ => cases hp <;> first | exact h.1 | trivial
  case lookingUp l phase =>
    cases phase with
    | lockContent b =>
      cases hp
      exact hi hk
    | _ => cases hp <;> first | exact h | trivial
  case accessing a phase => cases phase <;> cases hp <;> exact h
  case inspecting i phase => cases phase <;> cases hp <;> exact h
  case editing c phase =>
    cases phase with
    | act =>
      cases hp
      unfold RosterCall.act
      split <;> exact h
    | _ => cases hp <;> exact h
  case drawing d phase =>
    cases phase <;> cases hp
    exact h

end Step

/-! ### What a service names -/

namespace Service

/-- Whether everything that calls and sessions name exists. -/
structure Scoped (s : Service) : Prop where
  jobs : ∀ {i : CallRef} {call : Call}, s.calls[i]? = some call → call.job.Scoped s.store
  sessions : s.store.SessionsScoped

theorem scoped_withTables (limits : List Limits) : (withTables limits).Scoped where
  jobs h := by simp [withTables] at h
  sessions c session h := by simp [withTables, Store.withTables] at h

/-- Nothing that exists goes away. -/
theorem Does.has_kept {supply : Supply} {s s' : Service} {action : Action} {name : LockName}
    (hd : s.Does supply action s') (hn : s.store.Has name) : s'.store.Has name := by
  cases hd with
  | invoke hr => exact hn
  | step hc hp hr => exact (Instr.changes_of_run hr).has name hn
  | drop hc hg hb => exact (Store.has_setLock ..).mpr hn
  | edit hw | swap hw => exact (hw.has name).mpr hn
  | tend hk ha => exact (ha.has name).mpr hn

/-- The session of a registry never changes. -/
theorem Does.sessionOf_kept {supply : Supply} {s s' : Service} {action : Action} {r : RegistryRef}
    (hd : s.Does supply action s') (hr : s.store.Has (.registry r)) :
    s'.store.sessionOf r = s.store.sessionOf r := by
  cases hd with
  | invoke hj => rfl
  | step hc hp hrun => exact (Instr.changes_of_run hrun).session r hr
  | drop hc hg hb => exact Store.sessionOf_setLock ..
  | edit hw | swap hw => rfl
  | tend hk ha => exact ha.session r

/-- Every action leaves nothing named that does not exist. -/
theorem Scoped.of_does {supply : Supply} {s s' : Service} {action : Action} (hs : s.Scoped)
    (hd : s.Does supply action s') : s'.Scoped := by
  have hhas (name : LockName) : s.store.Has name → s'.store.Has name := hd.has_kept
  have hses : s'.store.sessions = s.store.sessions ∨
      ∃ (i : CallRef) (call : Call) (instr : Instr Job), s.calls[i]? = some call ∧
        call.job.progress = .next instr ∧
          s'.store.sessions = instr.onSessions s.store.sessions := by
    cases hd with
    | invoke hr => exact .inl rfl
    | step hc hn hr => exact .inr ⟨_, _, _, hc, hn, Instr.sessions_of_run hr⟩
    | @drop i call g hc hg hb => exact .inl rfl
    | edit hw | swap hw => exact .inl rfl
    | tend hk ha => exact .inl ha.sessions
  constructor
  case sessions =>
    intro c session hc
    obtain hsame | ⟨i, call, instr, hi, hn, hon⟩ := hses
    · rw [hsame] at hc
      obtain ⟨ht, hr⟩ := hs.sessions c session hc
      exact ⟨hhas _ ht, hhas _ hr⟩
    · rw [hon] at hc
      obtain ⟨before, hb, ht, hr⟩ | ⟨next, hopen⟩ := Instr.getElem?_onSessions hc
      · rw [ht, hr]
        obtain ⟨ht, hr⟩ := hs.sessions c before hb
        exact ⟨hhas _ ht, hhas _ hr⟩
      · obtain ⟨ht, hr⟩ := Job.names_of_open (hs.jobs hi) (hopen ▸ hn)
        exact ⟨hhas _ ht, hhas _ hr⟩
  case jobs =>
    have hmono : ∀ c : SessionRef, s.store.sessions[c]?.isSome → s'.store.sessions[c]?.isSome := by
      intro c hc
      obtain hsame | ⟨i, call, instr, -, -, hon⟩ := hses
      · rwa [hsame]
      · exact hon ▸ instr.isSome_onSessions hc
    intro j other hj
    obtain ⟨hj, -⟩ | ⟨_, _, -, hr, -, rfl, hsame⟩ | ⟨call, _, _, -, hc, hn, hr, rfl⟩ |
      ⟨call, _, -, hc, -, rfl⟩ := hd.call_cases hj
    · exact (hs.jobs hj).mono hhas hmono
    · exact hsame ▸ Job.scoped_of_ofRequest? hs.sessions hr
    · exact (hs.jobs hc).step hn hr
    · have hscoped := (hs.jobs hc).mono hhas hmono
      exact hscoped

/-- In every reachable service nothing is named that does not exist. -/
theorem Reachable.scoped {limits : List Limits} {s : Service} (hr : Reachable limits s) :
    s.Scoped :=
  hr.induct (scoped_withTables limits) fun _ _ _ _ hs _ h ↦ hs.of_does (does_of_act? h)

/-! ### When a step can be taken -/

/-- The next step of a call can be taken exactly when the lock it wants, if any, has room for it. -/
theorem Reachable.isSome_step? {limits : List Limits} {s : Service} (hr : Reachable limits s)
    {i : CallRef} {call : Call} {instr : Instr Job} (hc : s.calls[i]? = some call)
    (hn : call.job.progress = .next instr) (supply : Supply) :
    (s.step? supply i).isSome =
      match instr.wants with
      | some (name, mode) => (s.store.lockOf name).admits mode
      | none => true := by
  have hs := hr.sound
  have hneeds : instr.Needs s.store := by
    refine Job.needs (hr.scoped.jobs hc) (hs.knows hc) (fun h ↦ ?_) (fun h ↦ hs.made hc h)
      (fun h ↦ Store.has_of_unreleased (hs.live h)) hn
    exact hs.locked.has_of_holds
      ⟨call, hc, by simpa [Call.held, hs.locked.not_dropped hc hn] using h⟩
  rw [← Instr.isSome_run supply i hneeds]
  simp only [step?, hc, hn, Option.bind_eq_bind, Option.bind_some]
  cases instr.run supply i s.store <;> rfl

/-- A call whose next step wants no lock can take it. -/
theorem Reachable.goes {limits : List Limits} {s : Service} (hr : Reachable limits s) {i : CallRef}
    {job : Job} {instr : Instr Job} (hj : s.job? i = some job) (hn : job.progress = .next instr)
    (hw : instr.wants = none) (supply : Supply) : (s.step? supply i).isSome = true := by
  obtain ⟨call, hc, rfl⟩ := job?_eq_some.mp hj
  rw [hr.isSome_step? hc hn, hw]

end Service

end SessionBuffers
