import SessionBuffers.Proofs.Agreement
import SessionBuffers.Proofs.Notes

/-!
# Registries of sessions

Every session has a registry of its own: an attachment is given a new one and sets the session up
around it, so no two sessions share a registry and no call works on it before (`Service.Apart`). A
table is used through sessions only when its buffers are allocated and freed through sessions that
nobody is ending, when the registries of its sessions are used with this table only and are
otherwise just read, and when nobody ends a session while a call still works through it
(`Service.throughSessions`). What such a use amounts to for the calls of a service is `Housed`.
-/

namespace SessionBuffers

namespace Job

/-- The registry that an attachment has been given, until it hands it on. -/
def enrolled? : Job → Option RegistryRef
  | attaching _ (.count _ r) | attaching _ (.report _ r) | attaching _ (.open _ r) => some r
  | _ => none

section Step

variable {supply : Supply} {who : CallRef} {s s' : Store} {job next : Job} {instr : Instr Job}
  {r : RegistryRef}

theorem enrolled?_step (hn : job.progress = .next instr)
    (hr : instr.run supply who s = some (next, s')) (he : next.enrolled? = some r) :
    job.enrolled? = some r ∨ ¬ s.Has (.registry r) := by
  cases job <;> obtain ⟨step, hp, rfl⟩ := Progress.map_eq_next.mp hn <;>
    obtain ⟨x, hx, rfl⟩ := Instr.run_map_eq_some.mp hr
  case attaching a phase =>
    have hnew : ¬ s.Has (.registry s.registries.size) := by
      rw [Store.has_registry_iff]
      simp
    cases phase with
    | start =>
      simp only [Attachment.progress] at hp
      split at hp
      · cases hp
        obtain ⟨-, rfl, -⟩ | ⟨-, rfl, -⟩ := Instr.run_enroll.mp hx <;> cases he
      all_goals
        cases hp
        obtain ⟨-, rfl, -⟩ := Instr.run_consult.mp hx
        cases he
    | enroll t capacity =>
      cases hp
      obtain ⟨-, rfl, -⟩ | ⟨-, rfl, -⟩ := Instr.run_enroll.mp hx <;> cases he
      exact .inr hnew
    | count t q =>
      cases hp
      obtain ⟨-, rfl, -⟩ := Instr.run_count.mp hx
      exact .inl he
    | report t q =>
      cases hp
      obtain ⟨rfl, -⟩ := Instr.run_log.mp hx
      unfold Attachment.logged at he
      split at he
      · exact .inl he
      · cases he
    | «open» t q =>
      cases hp
      obtain ⟨rfl, -⟩ := Instr.run_open.mp hx
      cases he
    | ended o => cases hp
  all_goals cases he

end Step

/-- Whether a job sets up a session of a table around a registry. -/
def opens (t : TableRef) (r : RegistryRef) : Job → Bool
  | attaching a phase => a.purpose == .session t && (attaching a phase).enrolled? == some r
  | _ => false

/-- The table and the registry that a job allocates, frees or tears down with. -/
def place? : Job → Option (TableRef × RegistryRef)
  | allocating a _ => some (a.table, a.registry)
  | freeing f _ => some (f.table, f.registry)
  | tearingDown d _ => some (d.table, d.registry)
  | _ => none

/-- Whether a job is for tearing a registry down. -/
def tearsDown (r : RegistryRef) : Job → Bool
  | tearingDown d _ => d.registry == r
  | _ => false

/-- Whether a job is for allocating or freeing with a registry. -/
def worksOn (r : RegistryRef) : Job → Bool
  | allocating a _ => a.registry == r
  | freeing f _ => f.registry == r
  | _ => false

/-- Whether a job works on a registry and has not ended. -/
def isBusy (r : RegistryRef) (job : Job) : Bool := job.worksOn r && job.outcome?.isNone

/-- Whether a job changes the roster of a registry directly. -/
def edits (r : RegistryRef) : Job → Bool
  | editing c _ => c.registry == r && c.action.changes
  | _ => false

/-- Whether a job attaches a registry to a table without a session. -/
def isBare (t : TableRef) : Job → Bool
  | attaching a _ => a.purpose == .table t
  | _ => false

/-- What a job is for says all this. -/
theorem SameTask.same {job next : Job} (h : job.SameTask next) :
    next.place? = job.place? ∧ (∀ r, next.tearsDown r = job.tearsDown r) ∧
      (∀ r, next.worksOn r = job.worksOn r) ∧ (∀ r, next.edits r = job.edits r) ∧
      ∀ t, next.isBare t = job.isBare t := by
  cases job <;> cases next <;> cases h <;>
    exact ⟨rfl, fun _ ↦ rfl, fun _ ↦ rfl, fun _ ↦ rfl, fun _ ↦ rfl⟩

end Job

namespace Service

variable {limits : List Limits} {supply : Supply} {s s' : Service} {action : Action} {h : History}
  {t u : TableRef} {r : RegistryRef} {i : CallRef}

/-! ### Sessions after an action -/

/-- Only steps change sessions. -/
theorem Does.sessions_kept (hd : s.Does supply action s') (hne : ∀ i, action ≠ .step i) :
    s'.store.sessions = s.store.sessions := by
  cases hd with
  | @step i _ _ _ _ _ _ _ => exact absurd rfl (hne i)
  | tend hk ha => exact ha.sessions
  | _ => rfl

/-- A session found after an action was there before, with the same table and registry, or has just
been set up. -/
theorem Does.session_cases {c : SessionRef} {x : Session} (hd : s.Does supply action s')
    (hc : s'.store.sessions[c]? = some x) :
    (∃ y, s.store.sessions[c]? = some y ∧ y.table = x.table ∧ y.registry = x.registry) ∨
      ∃ i a, action = .step i ∧ s.job? i = some (.attaching a (.open x.table x.registry)) ∧
        c = s.store.sessions.size ∧ ∃ d, s'.job? i = some (.attaching a (.ended (.session d))) := by
  cases id hd with
  | invoke hj => exact .inl ⟨x, hc, rfl, rfl⟩
  | drop hcall hg hb => exact .inl ⟨x, hc, rfl, rfl⟩
  | edit hw | swap hw => exact .inl ⟨x, hc, rfl, rfl⟩
  | tend hk ha =>
    rw [show (_ : Array Session) = _ from ha.sessions] at hc
    exact .inl ⟨x, hc, rfl, rfl⟩
  | @step i call instr next store hi hp hr =>
    have hon := Instr.sessions_of_run hr
    rw [show (_ : Array Session) = _ from hon] at hc
    obtain ⟨y, hy, ht, hreg⟩ | ⟨after, rfl⟩ := Instr.getElem?_onSessions hc
    · exact .inl ⟨y, hy, ht.symm, hreg.symm⟩
    · by_cases hnew : c = s.store.sessions.size
      · right
        obtain ⟨a, hjob⟩ := Job.origin hp
        have hj : s.job? i = some (.attaching a (.open x.table x.registry)) :=
          job?_eq_some.mpr ⟨call, hi, hjob⟩
        refine ⟨i, a, rfl, hj, hnew, ?_⟩
        obtain ⟨instr, last, hn, hrun, hnext⟩ := hd.job_step hj
        cases hn
        obtain ⟨rfl, -⟩ := Instr.run_open.mp hrun
        exact ⟨_, hnext⟩
      · left
        simp only [Instr.onSessions, Array.getElem?_push, if_neg hnew] at hc
        exact ⟨x, hc, rfl, rfl⟩

/-- A session keeps its table and its registry, and does not begin anew once it has ended. -/
theorem Does.session_kept {c : SessionRef} {x : Session} (hd : s.Does supply action s')
    (hc : s.store.sessions[c]? = some x) :
    ∃ y, s'.store.sessions[c]? = some y ∧ y.table = x.table ∧ y.registry = x.registry ∧
      (x.ended = true → y.ended = true) := by
  cases hd with
  | invoke hj => exact ⟨x, hc, rfl, rfl, id⟩
  | drop hcall hg hb => exact ⟨x, hc, rfl, rfl, id⟩
  | edit hw | swap hw => exact ⟨x, hc, rfl, rfl, id⟩
  | tend hk ha => exact ⟨x, by rw [ha.sessions]; exact hc, rfl, rfl, id⟩
  | @step i call instr next store hi hp hr =>
    have hon := Instr.sessions_of_run hr
    cases instr with
    | «open» t r after =>
      refine ⟨x, ?_, rfl, rfl, id⟩
      rw [hon, Instr.onSessions, Array.getElem?_push,
        if_neg (Nat.ne_of_lt (Array.getElem?_eq_some_iff.mp hc).1)]
      exact hc
    | finish d first again =>
      by_cases hdc : d = c
      · refine ⟨{ x with ended := true }, ?_, rfl, rfl, fun _ ↦ rfl⟩
        simp [hon, Instr.onSessions, Array.getElem?_modify, hdc, hc]
      · refine ⟨x, ?_, rfl, rfl, id⟩
        simp [hon, Instr.onSessions, Array.getElem?_modify, hdc, hc]
    | _ => exact ⟨x, by rw [hon]; exact hc, rfl, rfl, id⟩

/-! ### Every session has a registry of its own -/

/-- Whether no two sessions share a registry, whether they have been set up or not; and whether a
call that ends a session is for its registry and its table. -/
structure Apart (s : Service) : Prop where
  sessions : ∀ {c d : SessionRef} {x y : Session}, s.store.sessions[c]? = some x →
    s.store.sessions[d]? = some y → x.registry = y.registry → c = d
  pending : ∀ {i : CallRef} {job : Job} {r : RegistryRef}, s.job? i = some job →
    job.enrolled? = some r → ∀ {c : SessionRef} {x : Session},
      s.store.sessions[c]? = some x → x.registry ≠ r
  unique : ∀ {i j : CallRef} {job other : Job} {r : RegistryRef}, s.job? i = some job →
    s.job? j = some other → job.enrolled? = some r → other.enrolled? = some r → i = j
  ending : ∀ {i : CallRef} {d : Teardown} {c : SessionRef},
    s.job? i = some (.tearingDown d (.finish c)) →
      ∃ x, s.store.sessions[c]? = some x ∧ x.table = d.table ∧ x.registry = d.registry

theorem apart_withTables (limits : List Limits) : (withTables limits).Apart := by
  constructor <;> simp [withTables, Store.withTables, job?]

/-- A registry that a call has been given was given to it before, or is new. -/
theorem Does.enrolled_cases {job : Job} (hd : s.Does supply action s') (hj : s'.job? i = some job)
    (he : job.enrolled? = some r) :
    (∃ before, s.job? i = some before ∧ before.enrolled? = some r ∧ before.SameTask job) ∨
      action = .step i ∧ ¬ s.store.Has (.registry r) := by
  obtain ⟨hold, -⟩ | ⟨request, -, hr, -⟩ | ⟨before, instr, hstep, hbefore, hn, hr⟩ :=
    hd.job_cases hj
  · exact .inl ⟨job, hold, he, .refl job⟩
  · cases Job.ofRequest?_eq_some.mp hr <;> cases he
  · obtain hold | hnew := Job.enrolled?_step hn hr he
    · exact .inl ⟨before, hbefore, hold, Job.sameTask_of_run hn hr⟩
    · exact .inr ⟨hstep, hnew⟩

/-- A registry that an attachment has been given exists. -/
theorem Scoped.has_enrolled {job : Job} (hs : s.Scoped) (hj : s.job? i = some job)
    (he : job.enrolled? = some r) : s.store.Has (.registry r) := by
  obtain ⟨call, hc, rfl⟩ := job?_eq_some.mp hj
  have hscoped := hs.jobs hc
  cases hjob : call.job with
  | attaching a phase =>
    rw [hjob] at he hscoped
    cases phase <;> cases he <;> exact hscoped.2
  | _ =>
    rw [hjob] at he
    cases he

/-- Every action leaves the registries of sessions apart. -/
theorem Apart.of_does (ha : s.Apart) (hs : s.Scoped) (hd : s.Does supply action s') :
    s'.Apart where
  sessions := by
    intro c d x y hc hy he
    obtain ⟨x', hx, -, hxr⟩ | ⟨i, a, rfl, hj, hc, -⟩ := hd.session_cases hc
    · obtain ⟨y', hy, -, hyr⟩ | ⟨i, a, -, hj, -⟩ := hd.session_cases hy
      · exact ha.sessions hx hy (by rw [hxr, hyr, he])
      · exact absurd (hxr.trans he) (ha.pending hj rfl hx)
    · obtain ⟨y', hy, -, hyr⟩ | ⟨i', a', hstep, hj', hd, -⟩ := hd.session_cases hy
      · exact absurd (hyr.trans he.symm) (ha.pending hj rfl hy)
      · exact hc.trans hd.symm
  pending := by
    intro i job r hj he c x hc hr
    subst hr
    obtain ⟨y, hy, -, hyr⟩ | ⟨j, a, hstep, hopen, -, d, hended⟩ := hd.session_cases hc
    · obtain ⟨before, hbefore, hold, -⟩ | ⟨-, hnew⟩ := hd.enrolled_cases hj he
      · exact ha.pending hbefore hold hy hyr
      · exact hnew (hyr ▸ (hs.sessions c y hy).2)
    · obtain ⟨before, hbefore, hold, -⟩ | ⟨-, hnew⟩ := hd.enrolled_cases hj he
      · obtain rfl := ha.unique hbefore hopen hold rfl
        cases hj.symm.trans hended
        cases he
      · exact hnew (hs.has_enrolled hopen rfl)
  unique := by
    intro i j job other r hj hother he heo
    obtain ⟨before, hbefore, hold, -⟩ | ⟨hi, hnew⟩ := hd.enrolled_cases hj he <;>
      obtain ⟨before', hbefore', hold', -⟩ | ⟨hj', hnew'⟩ := hd.enrolled_cases hother heo
    · exact ha.unique hbefore hbefore' hold hold'
    · exact absurd (hs.has_enrolled hbefore hold) hnew'
    · exact absurd (hs.has_enrolled hbefore' hold') hnew
    · exact Action.step.inj (hi.symm.trans hj')
  ending := by
    intro i d c hj
    have hthen {x : Session} (hx : s.store.sessions[c]? = some x) (ht : x.table = d.table)
        (hr : x.registry = d.registry) :
        ∃ x, s'.store.sessions[c]? = some x ∧ x.table = d.table ∧ x.registry = d.registry := by
      obtain ⟨y, hy, hyt, hyr, -⟩ := hd.session_kept hx
      exact ⟨y, hy, hyt.trans ht, hyr.trans hr⟩
    obtain ⟨hold, -⟩ | ⟨request, -, hr, -⟩ | ⟨before, instr, -, hbefore, hn, hr⟩ := hd.job_cases hj
    · obtain ⟨x, hx, ht, hreg⟩ := ha.ending hold
      exact hthen hx ht hreg
    · cases Job.ofRequest?_eq_some.mp hr with
      | endSession hc hreg => exact hthen hc rfl rfl
    · cases before <;> obtain ⟨step, hp, rfl⟩ := Progress.map_eq_next.mp hn <;>
        obtain ⟨last, hrun, he⟩ := Instr.run_map_eq_some.mp hr <;> cases he
      exact absurd rfl (Teardown.not_finish_of_step hp hrun c)

theorem Reachable.apart (hr : Reachable limits s) : s.Apart := by
  refine (hr.induct (P := fun s ↦ s.Apart ∧ s.Scoped)
    ⟨apart_withTables limits, scoped_withTables limits⟩ fun _ _ _ _ hs _ h ↦ ?_).1
  exact ⟨hs.1.of_does hs.2 (does_of_act? h), hs.2.of_does (does_of_act? h)⟩

/-! ### Use through sessions -/

/-- Whether some call has a job of a kind. -/
def someJob (s : Service) (p : Job → Bool) : Bool := s.calls.any fun call ↦ p call.job

theorem someJob_iff {p : Job → Bool} :
    s.someJob p = true ↔ ∃ i job, s.job? i = some job ∧ p job = true := by
  rw [someJob, Array.any_eq_true']
  constructor
  · rintro ⟨call, hcall, hp⟩
    obtain ⟨i, hi⟩ := Array.mem_iff_getElem?.mp hcall
    exact ⟨i, call.job, job?_eq_some.mpr ⟨call, hi, rfl⟩, hp⟩
  · rintro ⟨i, job, hj, hp⟩
    obtain ⟨call, hc, rfl⟩ := job?_eq_some.mp hj
    exact ⟨call, Array.mem_of_getElem? hc, hp⟩

/-- Whether a registry is that of a session of a table. -/
def hasSession (s : Service) (t : TableRef) (r : RegistryRef) : Bool :=
  s.store.sessions.any fun x ↦ x.table == t && x.registry == r

theorem hasSession_iff : s.hasSession t r = true ↔
    ∃ (c : SessionRef) (x : Session), s.store.sessions[c]? = some x ∧ x.table = t ∧
      x.registry = r := by
  rw [hasSession, Array.any_eq_true']
  simp only [Bool.and_eq_true, beq_iff_eq]
  constructor
  · rintro ⟨x, hx, ht, hr⟩
    obtain ⟨c, hc⟩ := Array.mem_iff_getElem?.mp hx
    exact ⟨c, x, hc, ht, hr⟩
  · rintro ⟨c, x, hc, ht, hr⟩
    exact ⟨x, Array.mem_of_getElem? hc, ht, hr⟩

/-- Whether a registry is that of a session of a table, or of one that is being set up. -/
def owns (s : Service) (t : TableRef) (r : RegistryRef) : Bool :=
  s.hasSession t r || s.someJob (Job.opens t r)

/-- Whether an action uses a table through its sessions only. No registry is attached to the table
by itself; buffers are allocated and freed through sessions that nobody is ending; the registry of a
session is used with its table only, otherwise just read, and torn down only by ending the session;
and nobody ends a session while a call works through it. -/
def throughSessions (t : TableRef) (s : Service) : Action → Bool
  | .invoke (.attach a) => a.purpose != .table t
  | .invoke (.allocate u r _ _) | .invoke (.free u r _) =>
    if u = t then s.hasSession t r && !s.someJob (Job.tearsDown r) else !s.owns t r
  | .invoke (.teardown u r) => u != t && !s.owns t r
  | .invoke (.endSession c) =>
    match s.store.sessions[c]? with
    | some x => x.table != t || !s.someJob (Job.isBusy x.registry)
    | none => true
  | .invoke (.roster r action) => !action.changes || !s.owns t r
  | _ => true

/-- Whether every action of a history uses a table through its sessions only. -/
def onlyThroughSessions (t : TableRef) : Service → History → Bool
  | _, [] => true
  | s, (supply, action) :: h => s.throughSessions t action &&
    match s.act? supply action with
    | some u => u.onlyThroughSessions t h
    | none => true

theorem onlyThroughSessions_cons {v : Service} (hact : s.act? supply action = some v) :
    s.onlyThroughSessions t ((supply, action) :: h) = true ↔
      s.throughSessions t action = true ∧ v.onlyThroughSessions t h = true := by
  simp [onlyThroughSessions, hact]

theorem Does.hasSession_kept (hd : s.Does supply action s') (hs : s.hasSession t r = true) :
    s'.hasSession t r = true := by
  obtain ⟨c, x, hc, ht, hr⟩ := hasSession_iff.mp hs
  obtain ⟨y, hy, hyt, hyr, -⟩ := hd.session_kept hc
  exact hasSession_iff.mpr ⟨c, y, hy, hyt.trans ht, hyr.trans hr⟩

/-- The session that an attachment is about to set up is of the table it has asked for. -/
theorem Reachable.purpose_of_open {a : Attachment} (hs : Reachable limits s)
    (hj : s.job? i = some (.attaching a (.open t r))) : a.purpose = .session t := by
  obtain ⟨h, hr⟩ := hs
  exact (Reachable.leaves hr hj).1

/-- A session's registry was a session's before, or is new. -/
theorem Does.owns_cases (hs : Reachable limits s) (hd : s.Does supply action s')
    (ho : s'.owns t r = true) : s.owns t r = true ∨ ¬ s.store.Has (.registry r) := by
  simp only [owns, Bool.or_eq_true, hasSession_iff, someJob_iff] at ho ⊢
  obtain ⟨c, x, hc, rfl, rfl⟩ | ⟨j, job, hj, hopens⟩ := ho
  · obtain ⟨y, hy, ht, hr⟩ | ⟨i, a, -, hj, -⟩ := hd.session_cases hc
    · exact .inl (.inl ⟨c, y, hy, ht, hr⟩)
    · exact .inl (.inr ⟨i, _, hj, by simp [Job.opens, hs.purpose_of_open hj, Job.enrolled?]⟩)
  · cases job with
    | attaching a phase =>
      obtain ⟨hpurpose, he⟩ : a.purpose = .session t ∧
          (Job.attaching a phase).enrolled? = some r := by simpa [Job.opens] using hopens
      obtain ⟨before, hbefore, hold, hsame⟩ | ⟨-, hnew⟩ := hd.enrolled_cases hj he
      · cases before with
        | attaching b phase' =>
          obtain rfl : b = a := hsame
          exact .inl (.inr ⟨j, _, hbefore, by simp [Job.opens, hpurpose, hold]⟩)
        | _ => cases hsame
      · exact .inr hnew
    | _ => cases hopens

/-- A session's registry is not that of another table's session. -/
theorem Apart.table_eq (ha : s.Apart) {c : SessionRef} {x : Session}
    (hc : s.store.sessions[c]? = some x) (ho : s.owns t x.registry = true) : x.table = t := by
  simp only [owns, Bool.or_eq_true, hasSession_iff, someJob_iff] at ho
  obtain ⟨d, y, hy, rfl, hr⟩ | ⟨j, job, hj, hopens⟩ := ho
  · obtain rfl := ha.sessions hc hy hr.symm
    cases hc.symm.trans hy
    rfl
  · cases job with
    | attaching a phase =>
      obtain ⟨-, he⟩ : a.purpose = .session t ∧
          (Job.attaching a phase).enrolled? = some x.registry := by
        simpa [Job.opens] using hopens
      exact absurd rfl (ha.pending hj he hc)
    | _ => cases hopens

/-- What the calls of a service are like when a table has been used through its sessions only. -/
structure Housed (t : TableRef) (s : Service) : Prop where
  /-- What works on the table has a session's registry, and what has such a registry works on it. -/
  placed : ∀ {i : CallRef} {job : Job} {u : TableRef} {r : RegistryRef}, s.job? i = some job →
    job.place? = some (u, r) → (u = t → s.hasSession t r = true) ∧ (s.owns t r = true → u = t)
  bare : ∀ {i : CallRef} {job : Job}, s.job? i = some job → job.isBare t = false
  spared : ∀ {i : CallRef} {job : Job} {r : RegistryRef}, s.job? i = some job →
    job.edits r = true → s.owns t r = false
  /-- No session is ended while a call works through it. -/
  parted : ∀ {i j : CallRef} {job other : Job} {r : RegistryRef}, s.job? i = some job →
    s.job? j = some other → job.isBusy r = true → other.tearsDown r = true → s.owns t r = false

theorem housed_withTables (limits : List Limits) (t : TableRef) :
    (withTables limits).Housed t := by
  constructor <;> simp [withTables, job?]

/-- A job found after an action was there before, for the same and no further on than to its end; or
it has just been asked for. -/
theorem Does.task_cases {job : Job} (hd : s.Does supply action s') (hj : s'.job? i = some job) :
    (∃ before, s.job? i = some before ∧ before.SameTask job ∧
      (job.outcome? = none → before.outcome? = none)) ∨
    ∃ request, action = .invoke request ∧ Job.Fresh s.store request job := by
  obtain ⟨hold, -⟩ | ⟨request, rfl, hr, -⟩ | ⟨before, instr, -, hbefore, hn, hr⟩ := hd.job_cases hj
  · exact .inl ⟨job, hold, .refl job, id⟩
  · exact .inr ⟨request, rfl, Job.ofRequest?_eq_some.mp hr⟩
  · exact .inl ⟨before, hbefore, Job.sameTask_of_run hn hr, fun _ ↦ by simp [Job.outcome?, hn]⟩

/-- The registry of a job exists. -/
theorem Scoped.has_place {job : Job} (hs : s.Scoped) (hj : s.job? i = some job)
    (hp : job.place? = some (u, r)) : s.store.Has (.registry r) := by
  obtain ⟨call, hc, rfl⟩ := job?_eq_some.mp hj
  have hscoped := hs.jobs hc
  cases hjob : call.job with
  | allocating a phase | freeing f phase =>
    rw [hjob] at hp hscoped
    cases hp
    exact hscoped.2
  | tearingDown d phase =>
    rw [hjob] at hp hscoped
    cases hp
    exact hscoped.2.1
  | _ =>
    rw [hjob] at hp
    cases hp

theorem Scoped.has_torn {job : Job} (hs : s.Scoped) (hj : s.job? i = some job)
    (hdown : job.tearsDown r = true) : s.store.Has (.registry r) := by
  cases job with
  | tearingDown d phase =>
    obtain rfl : d.registry = r := by simpa [Job.tearsDown] using hdown
    exact hs.has_place hj rfl
  | _ => cases hdown

theorem Scoped.has_edited {job : Job} (hs : s.Scoped) (hj : s.job? i = some job)
    (he : job.edits r = true) : s.store.Has (.registry r) := by
  obtain ⟨call, hc, rfl⟩ := job?_eq_some.mp hj
  have hscoped := hs.jobs hc
  cases hjob : call.job with
  | editing c phase =>
    rw [hjob] at he hscoped
    obtain ⟨rfl, -⟩ : c.registry = r ∧ c.action.changes = true := by simpa [Job.edits] using he
    exact hscoped
  | _ =>
    rw [hjob] at he
    cases he

/-- What registries of sessions are no more than they were. -/
private theorem not_owns_of_does (hs : Reachable limits s) (hd : s.Does supply action s')
    (hnot : s.owns t r = false) (hhas : s.store.Has (.registry r)) : s'.owns t r = false := by
  refine Bool.eq_false_iff.mpr fun ho ↦ ?_
  obtain ho | hnew := hd.owns_cases hs ho
  · rw [hnot] at ho
    cases ho
  · exact hnew hhas

/-- What is asked of a table through its sessions only, works as calls on the table have to. -/
private theorem placed_of_fresh (ha : s.Apart) {request : Request} {job : Job}
    (hthrough : s.throughSessions t (.invoke request) = true)
    (hf : Job.Fresh s.store request job) (hp : job.place? = some (u, r)) :
    s.store.Has (.registry r) ∧ (u = t → s.hasSession t r = true) ∧
      (s.owns t r = true → u = t) := by
  cases hf with
  | allocate ht hr | free ht hr =>
    cases hp
    simp only [throughSessions] at hthrough
    split at hthrough
    · next he =>
      simp only [Bool.and_eq_true] at hthrough
      exact ⟨hr, fun _ ↦ hthrough.1, fun _ ↦ he⟩
    · next hne => exact ⟨hr, fun he ↦ absurd he hne, fun ho ↦ by simp [ho] at hthrough⟩
  | teardown ht hr =>
    cases hp
    simp only [throughSessions, Bool.and_eq_true, bne_iff_ne, Bool.not_eq_true'] at hthrough
    exact ⟨hr, fun he ↦ absurd he hthrough.1, fun ho ↦ by simp [ho] at hthrough⟩
  | @endSession c x hc hr =>
    cases hp
    exact ⟨hr, fun ht ↦ hasSession_iff.mpr ⟨c, x, hc, ht, rfl⟩, ha.table_eq hc⟩
  | _ => cases hp

/-- Every action that uses a table through its sessions only leaves the calls as they have to be. -/
theorem Housed.of_does (hh : s.Housed t) (hs : Reachable limits s) (hd : s.Does supply action s')
    (hthrough : s.throughSessions t action = true) : s'.Housed t where
  placed := by
    intro i job u r hj hp
    have hboth : s.store.Has (.registry r) ∧ (u = t → s.hasSession t r = true) ∧
        (s.owns t r = true → u = t) := by
      obtain ⟨before, hbefore, hsame, -⟩ | ⟨request, rfl, hf⟩ := hd.task_cases hj
      · rw [hsame.same.1] at hp
        exact ⟨hs.scoped.has_place hbefore hp, hh.placed hbefore hp⟩
      · exact placed_of_fresh hs.apart hthrough hf hp
    obtain ⟨hhas, hsession, howns⟩ := hboth
    refine ⟨fun ht ↦ hd.hasSession_kept (hsession ht), fun ho ↦ ?_⟩
    obtain ho | hnew := hd.owns_cases hs ho
    · exact howns ho
    · exact absurd hhas hnew
  bare := by
    intro i job hj
    obtain ⟨before, hbefore, hsame, -⟩ | ⟨request, rfl, hf⟩ := hd.task_cases hj
    · rw [hsame.same.2.2.2.2]
      exact hh.bare hbefore
    · cases hf with
      | attach h => simpa [Job.isBare, throughSessions] using hthrough
      | _ => rfl
  spared := by
    intro i job r hj he
    obtain ⟨before, hbefore, hsame, -⟩ | ⟨request, rfl, hf⟩ := hd.task_cases hj
    · rw [hsame.same.2.2.2.1] at he
      exact not_owns_of_does hs hd (hh.spared hbefore he) (hs.scoped.has_edited hbefore he)
    · cases hf with
      | @roster q edit hr =>
        obtain ⟨rfl, hchanges⟩ : q = r ∧ edit.changes = true := by simpa [Job.edits] using he
        exact not_owns_of_does hs hd (by simpa [throughSessions, hchanges] using hthrough) hr
      | _ => cases he
  parted := by
    intro i j job other r hj ho hbusy hdown
    obtain ⟨hworks, hunended⟩ : job.worksOn r = true ∧ job.outcome? = none := by
      simpa [Job.isBusy] using hbusy
    obtain ⟨before, hbefore, hsame, hback⟩ | ⟨request, rfl, hf⟩ := hd.task_cases hj
    · rw [hsame.same.2.2.1] at hworks
      have hbusy' : before.isBusy r = true := by simp [Job.isBusy, hworks, hback hunended]
      obtain ⟨before', hbefore', hsame', -⟩ | ⟨request, rfl, hf⟩ := hd.task_cases ho
      · rw [hsame'.same.2.1] at hdown
        exact not_owns_of_does hs hd (hh.parted hbefore hbefore' hbusy' hdown)
          (hs.scoped.has_torn hbefore' hdown)
      · cases hf with
        | @teardown u q ht hr =>
          obtain rfl : q = r := by simpa [Job.tearsDown] using hdown
          refine not_owns_of_does hs hd ?_ hr
          simp only [throughSessions, Bool.and_eq_true, Bool.not_eq_true'] at hthrough
          exact hthrough.2
        | @endSession c x hc hr =>
          obtain rfl : x.registry = r := by simpa [Job.tearsDown] using hdown
          refine not_owns_of_does hs hd (Bool.eq_false_iff.mpr fun hown ↦ ?_) hr
          -- A busy call keeps the session from being ended.
          have hsome := someJob_iff.mpr ⟨i, before, hbefore, hbusy'⟩
          simp [throughSessions, hc, hs.apart.table_eq hc hown, hsome] at hthrough
        | _ => cases hdown
    · obtain ⟨before', hbefore', hsame', -⟩ | ⟨_, hrequest, hf'⟩ := hd.task_cases ho
      · rw [hsame'.same.2.1] at hdown
        have hsome := someJob_iff.mpr ⟨j, before', hbefore', hdown⟩
        cases hf with
        | @allocate u q _ _ ht hr =>
          obtain rfl : q = r := by simpa [Job.worksOn] using hworks
          refine not_owns_of_does hs hd ?_ hr
          simp only [throughSessions, hsome] at hthrough
          split at hthrough
          · simp at hthrough
          · simpa using hthrough
        | @free u q _ ht hr =>
          obtain rfl : q = r := by simpa [Job.worksOn] using hworks
          refine not_owns_of_does hs hd ?_ hr
          simp only [throughSessions, hsome] at hthrough
          split at hthrough
          · simp at hthrough
          · simpa using hthrough
        | _ => cases hworks
      · -- One request is not for both.
        cases hrequest
        cases hf <;> cases hf' <;> first | cases hworks | cases hdown

end Service

end SessionBuffers
