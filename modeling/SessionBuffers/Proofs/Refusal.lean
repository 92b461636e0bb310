import SessionBuffers.Proofs.Notes
import SessionBuffers.Proofs.Sound

/-!
# Refused calls

A call that is refused has done nothing by the time it ends. From the position at which it ends one
can tell that it never came to a step that changes an index, a roster, content that existed before
or a session (`Job.spares`); the locks it has taken it has given back; and all that is left of it
are its notes, which say that it has counted its failure once and that it has drawn a number only if
that number was in use.
-/

namespace SessionBuffers

/-- A lock that a call does not hold is not changed when the call gives it back. -/
theorem Lock.release_of_not_holds {l : Lock} {who : CallRef} (h : ∀ mode, ¬ l.Holds who mode) :
    l.release who = l := by
  cases l with
  | shared holders => exact congrArg Lock.shared (List.erase_of_not_mem (h .shared))
  | exclusive holder => exact if_neg fun he ↦ h .exclusive he.symm

/-- Whether one store has all that another has, and as it is there: tables, registries, sessions,
indexes, rosters, contents, and every lock but for what call `who` may hold of it. Counters, next
numbers, the log and storage set up since may differ. -/
structure Store.Spares (who : CallRef) (s s' : Store) : Prop where
  tables : s'.tables.map Table.limits = s.tables.map Table.limits
  registries : s'.registries.map Registry.session = s.registries.map Registry.session
  sessions : s'.sessions = s.sessions
  index : ∀ t, s'.indexOf t = s.indexOf t
  roster : ∀ r, s'.rosterOf r = s.rosterOf r
  has : ∀ b, s.Has (.content b) → s'.Has (.content b)
  content : ∀ b, s.Has (.content b) → s'.contentOf b = s.contentOf b
  lock : ∀ name, (s'.lockOf name).release who = (s.lockOf name).release who

namespace Store.Spares

variable {who : CallRef} {s s' s'' : Store}

protected theorem refl (who : CallRef) (s : Store) : s.Spares who s :=
  ⟨rfl, rfl, rfl, fun _ ↦ rfl, fun _ ↦ rfl, fun _ ↦ id, fun _ _ ↦ rfl, fun _ ↦ rfl⟩

protected theorem trans (h : s.Spares who s') (h' : s'.Spares who s'') : s.Spares who s'' where
  tables := h'.tables.trans h.tables
  registries := h'.registries.trans h.registries
  sessions := h'.sessions.trans h.sessions
  index t := (h'.index t).trans (h.index t)
  roster r := (h'.roster r).trans (h.roster r)
  has b hb := h'.has b (h.has b hb)
  content b hb := (h'.content b (h.has b hb)).trans (h.content b hb)
  lock name := (h'.lock name).trans (h.lock name)

end Store.Spares

/-! ### Steps that spare the store -/

namespace Instr

variable {σ : Type} {supply : Supply} {who : CallRef} {s s' : Store} {x : σ} {instr : Instr σ}

/-- Whether a step only reads, takes or gives back a lock, makes room in a roster, draws a number,
counts or logs. -/
def isQuiet : Instr σ → Bool
  | consult _ _ | acquire _ _ _ | release _ _ | reserve _ _ _ _ _ | draw _ _ | readIndex _ _
  | readRoster _ _ | readContent _ _ | count _ _ _ _ | log _ _ => true
  | _ => false

/-- A quiet step sets nothing up, and does nothing to sessions, indexes, rosters and contents. -/
private theorem kept_of_isQuiet (hq : instr.isQuiet = true) :
    instr.makes = false ∧ (∀ sessions, instr.onSessions sessions = sessions) ∧
      (∀ t index, instr.onIndex t index = index) ∧ (∀ r roster, instr.onRoster r roster = roster) ∧
      ∀ b content, instr.onContent b content = content := by
  cases instr <;> first
    | exact ⟨rfl, fun _ ↦ rfl, fun _ _ ↦ rfl, fun _ _ ↦ rfl, fun _ _ ↦ rfl⟩
    | cases hq

theorem spares_of_isQuiet (hq : instr.isQuiet = true) (hr : instr.run supply who s = some (x, s'))
    (hl : ∀ name, (s'.lockOf name).release who = (s.lockOf name).release who) :
    s.Spares who s' := by
  obtain ⟨hmakes, hsessions, hindex, hroster, hcontent⟩ := kept_of_isQuiet hq
  have hc := changes_of_run hr
  have hf := sameFrame_of_run hr hmakes
  exact
    { tables := hf.limits
      registries := hf.sessions
      sessions := (sessions_of_run hr).trans (hsessions _)
      index := fun t ↦ (hc.index t).trans (hindex t _)
      roster := fun r ↦ (hc.roster r).trans (hroster r _)
      has := fun b ↦ hc.has _
      content := fun b hb ↦ (hc.content b hb).trans (hcontent b _)
      lock := hl }

/-- Setting storage up spares what is there. -/
theorem spares_of_provide {user kernel : UInt64} {given : StorageRef → σ} {refused : σ}
    (hr : (provide user kernel given refused).run supply who s = some (x, s'))
    (hl : ∀ name, (s'.lockOf name).release who = (s.lockOf name).release who) :
    s.Spares who s' := by
  obtain ⟨-, -, rfl⟩ | ⟨-, -, rfl⟩ := run_provide.mp hr
  · exact ⟨rfl, rfl, rfl, fun _ ↦ rfl, fun _ ↦ rfl, fun _ ↦ Store.has_push_storage s _,
      fun _ hb ↦ Store.contentOf_push_storage s _ hb, hl⟩
  · exact .refl who _

end Instr

namespace Job

/-- Whether a job may still be refused, or has been. -/
def mayFail : Job → Bool
  | attaching _ .start | attaching _ (.enroll _ _) | attaching _ (.ended (.refused _)) => true
  | allocating _ .checkLimits | allocating _ .provide | allocating _ (.lockContent _)
  | allocating _ (.lockRegistry _) | allocating _ (.lockTable _) | allocating _ (.reserve _)
  | allocating _ (.draw _) | allocating _ (.insert _ _) | allocating _ (.abandonRegistry _ _)
  | allocating _ (.abandonTable _ _) | allocating _ (.abandonContent _ _)
  | allocating _ (.countFailure _) | allocating _ (.reportFailure _)
  | allocating _ (.ended (.refused _)) => true
  | freeing _ .lockRegistry | freeing _ .lockTable | freeing _ .find | freeing _ (.checkOwner _)
  | freeing _ (.missRegistry _) | freeing _ (.missTable _) | freeing _ (.countMiss _)
  | freeing _ (.reportMiss _) | freeing _ (.ended (.refused _)) => true
  | lookingUp _ .lockTable | lookingUp _ .find | lookingUp _ .missTable | lookingUp _ .countMiss
  | lookingUp _ .reportMiss | lookingUp _ (.ended (.refused _)) => true
  | accessing _ .lockContent | accessing _ .check | accessing _ .unlockReleased
  | accessing _ (.ended (.refused _)) => true
  | _ => false

variable {supply : Supply} {who : CallRef} {s s' : Store} {job next : Job} {instr : Instr Job}

private theorem not_mayFail_of_always (hr : instr.run supply who s = some (next, s'))
    (h : instr.Always fun next ↦ next.mayFail = false) (hnext : next.mayFail = true) : False := by
  have hnot := h.of_run hr
  rw [hnext] at hnot
  cases hnot

/-- A step that leads to where a job may be refused comes from where it may be refused, and spares
the store. -/
theorem spares (hn : job.progress = .next instr) (hr : instr.run supply who s = some (next, s'))
    (hl : ∀ name, (s'.lockOf name).release who = (s.lockOf name).release who)
    (hnext : next.mayFail = true) : job.mayFail = true ∧ s.Spares who s' := by
  cases job with
  | attaching a phase =>
    obtain ⟨step, hp, rfl⟩ := Progress.map_eq_next.mp hn
    cases phase with
    | ended o => cases hp
    | start =>
      simp only [Attachment.progress] at hp
      split at hp
      · cases hp
        obtain ⟨-, rfl, -⟩ | ⟨-, -, rfl⟩ := Instr.run_enroll.mp hr
        · cases hnext
        · exact ⟨rfl, .refl who _⟩
      all_goals
        cases hp
        exact ⟨rfl, Instr.spares_of_isQuiet rfl hr hl⟩
    | enroll t capacity =>
      cases hp
      obtain ⟨-, rfl, -⟩ | ⟨-, -, rfl⟩ := Instr.run_enroll.mp hr
      · cases hnext
      · exact ⟨rfl, .refl who _⟩
    | report t r =>
      cases hp
      refine (not_mayFail_of_always hr ?_ hnext).elim
      dsimp only [Instr.map, Instr.Always]
      unfold Attachment.logged
      split <;> rfl
    | _ =>
      cases hp
      exact (not_mayFail_of_always hr (by simp [Instr.map, Instr.Always, mayFail]) hnext).elim
  | allocating a phase =>
    obtain ⟨step, hp, rfl⟩ := Progress.map_eq_next.mp hn
    cases phase with
    | ended o => cases hp
    | provide =>
      cases hp
      exact ⟨rfl, Instr.spares_of_provide hr hl⟩
    | insert b key =>
      cases hp
      obtain ⟨-, ⟨-, -, rfl⟩ | ⟨-, rfl, -⟩⟩ := Instr.run_insert.mp hr
      · exact ⟨rfl, .refl who _⟩
      · cases hnext
    | unlockTable b key | enlist b key | unlockRegistry b key | unlockContent b key | count b key
    | report b key =>
      cases hp
      exact (not_mayFail_of_always hr rfl hnext).elim
    | _ =>
      cases hp
      exact ⟨rfl, Instr.spares_of_isQuiet rfl hr hl⟩
  | freeing f phase =>
    obtain ⟨step, hp, rfl⟩ := Progress.map_eq_next.mp hn
    cases phase with
    | ended o => cases hp
    | lockContent b | erase b | forget b | unlockRegistry b | unlockTable b | dispose b
    | unlockContent b | count | report =>
      cases hp
      exact (not_mayFail_of_always hr (by simp [Instr.map, Instr.Always, mayFail]) hnext).elim
    | _ =>
      cases hp
      exact ⟨rfl, Instr.spares_of_isQuiet rfl hr hl⟩
  | lookingUp l phase =>
    obtain ⟨step, hp, rfl⟩ := Progress.map_eq_next.mp hn
    cases phase with
    | ended o => cases hp
    | lockContent b | unlockTable b | count b =>
      cases hp
      exact (not_mayFail_of_always hr rfl hnext).elim
    | _ =>
      cases hp
      exact ⟨rfl, Instr.spares_of_isQuiet rfl hr hl⟩
  | accessing a phase =>
    obtain ⟨step, hp, rfl⟩ := Progress.map_eq_next.mp hn
    cases phase with
    | ended o => cases hp
    | _ =>
      cases hp
      exact ⟨rfl, Instr.spares_of_isQuiet rfl hr hl⟩
  | _ _ phase =>
    obtain ⟨step, -, rfl⟩ := Progress.map_eq_next.mp hn
    obtain ⟨x, -, rfl⟩ := Instr.run_map_eq_some.mp hr
    cases hnext

/-- A job that was refused is where a job may be refused. -/
theorem Proper.mayFail {why : Failure} (h : job.Proper)
    (ho : job.outcome? = some (.refused why)) : job.mayFail = true := by
  have ha := h.answers ho
  rw [outcome?_eq_some] at ho
  cases job with
  | attaching a phase =>
    cases phase with
    | start =>
      simp only [progress, Attachment.progress] at ho
      split at ho <;> cases ho
    | ended o =>
      cases ho
      rfl
    | _ => cases ho
  | allocating a phase | freeing f phase | lookingUp l phase | accessing a phase =>
    cases phase <;> cases ho
    rfl
  | tearingDown d phase => simp [Answers, Teardown.Answers] at ha
  | inspecting i phase =>
    obtain ⟨index, hi⟩ := ha
    cases hq : i.question <;> simp [hq, Question.answer] at hi
  | editing c phase => simp [Answers, RosterCall.Answers] at ha
  | drawing d phase => simp [Answers, Drawing.Answers] at ha

end Job

/-! ### What a refused call leaves -/

/-- Whether a request can be refused for this cause, with these notes left by its call: an
allocation counts its failure, and has drawn a number only if that number was in use; a free and a
lookup count that they have missed; an attachment and an access count nothing. -/
def Request.Fails (s : Store) (why : Failure) (notes : List Note) : Request → Prop
  | .attach a =>
    why = Supply.rosterFailure (a.capacity s.limitsOf) ∧ notes = [.reserved false]
  | .allocate t r user kernel =>
    ∃ before, notes = before ++ [.counted t .allocationFailures 1,
        .logged (.allocateFailed (s.sessionOf r) user kernel why)] ∧
      ((s.limitsOf t).permits user kernel = false ∧ why = .allocationFailed user kernel ∧
          before = [] ∨
        (s.limitsOf t).permits user kernel = true ∧ why = .allocationFailed user kernel ∧
          (before = [.provided false] ∨ before = [.provided true, .reserved false]) ∨
        ∃ id, (s.limitsOf t).permits user kernel = true ∧ why = .duplicateKey ⟨s.sessionOf r, id⟩ ∧
          before = [.provided true, .reserved true, .drawn t id])
  | .free t r id => why = .notFound ⟨s.sessionOf r, id⟩ ∧
    ∃ inTable, notes = [.counted t .freeMisses 1, .logged (.freeMissed ⟨s.sessionOf r, id⟩ inTable)]
  | .lookup t key _ =>
    why = .notFound key ∧ notes = [.counted t .lookupMisses 1, .logged (.lookupMissed key)]
  | .access h _ => why = .notFound h.key ∧ notes = []
  | _ => False

/-- The counter of a table by which the refusal of a request is counted. -/
def Request.failureCounter? : Request → Option (TableRef × Counter)
  | .allocate t _ _ _ => some (t, .allocationFailures)
  | .free t _ _ => some (t, .freeMisses)
  | .lookup t _ _ => some (t, .lookupMisses)
  | _ => none

/-- Whether a request to a table was refused because the number drawn for it was in use. -/
def Request.wastesNumber (t : TableRef) (why : Failure) : Request → Bool
  | .allocate u _ _ _ => u = t && (why matches .duplicateKey _)
  | _ => false

section Fails

variable {request : Request} {why : Failure} {store : Store} {notes : List Note}

/-- The notes and the cause of a refused call fit its request. -/
theorem Request.fails_of_leaves {job last : Job}
    (hj : Job.Fresh store request job) (hsame : job.SameTask last) (hp : last.Proper)
    (hl : last.Leaves store.limitsOf notes) (ho : last.outcome? = some (.refused why)) :
    request.Fails store why notes := by
  have ha := hp.answers ho
  rw [Job.outcome?_eq_some] at ho
  cases last with
  | attaching a phase =>
    cases hj <;> cases hsame
    cases phase with
    | start =>
      simp only [Job.progress, Attachment.progress] at ho
      split at ho <;> cases ho
    | ended o =>
      cases ho
      exact hl
    | _ => cases ho
  | allocating a phase =>
    cases hj <;> cases hsame
    cases phase <;> cases ho
    obtain ⟨⟨session, id⟩, rfl, hpermits, rfl, rfl⟩ |
      ⟨rfl, ⟨hpermits, rfl⟩ | ⟨hpermits, rfl | rfl⟩⟩ := hl
    · exact ⟨_, rfl, .inr (.inr ⟨id, hpermits, rfl, rfl⟩)⟩
    · exact ⟨_, rfl, .inl ⟨hpermits, rfl, rfl⟩⟩
    · exact ⟨[.provided false], rfl, .inr (.inl ⟨hpermits, rfl, .inl rfl⟩)⟩
    · exact ⟨[.provided true, .reserved false], rfl, .inr (.inl ⟨hpermits, rfl, .inr rfl⟩)⟩
  | freeing f phase =>
    cases hj <;> cases hsame
    cases phase <;> cases ho
    obtain ha | ha := ha <;> cases ha
    exact ⟨rfl, hl⟩
  | lookingUp l phase =>
    cases hj <;> cases hsame
    cases phase <;> cases ho
    obtain ⟨_, ha⟩ | ha := ha <;> cases ha
    exact ⟨rfl, hl⟩
  | accessing a phase =>
    cases hj <;> cases hsame
    cases phase <;> cases ho
    obtain ha | ha := ha <;> cases ha
    exact ⟨rfl, hl⟩
  | tearingDown d phase => simp [Job.Answers, Teardown.Answers] at ha
  | inspecting i phase =>
    obtain ⟨index, hi⟩ := ha
    cases hq : i.question <;> simp [hq, Question.answer] at hi
  | editing c phase => simp [Job.Answers, RosterCall.Answers] at ha
  | drawing d phase => simp [Job.Answers, Drawing.Answers] at ha

/-- A refusal is counted once, by the counter of its request. -/
theorem Request.Fails.adds (h : request.Fails store why notes)
    (t : TableRef) (which : Counter) : (notes.map (Note.adds t which)).sum =
      if request.failureCounter? = some (t, which) then 1 else 0 := by
  cases request with
  | attach a =>
    obtain ⟨-, rfl⟩ := h
    simp [Note.adds, Request.failureCounter?]
  | allocate u r user kernel =>
    obtain ⟨before, rfl, ⟨-, -, rfl⟩ | ⟨-, -, rfl | rfl⟩ | ⟨_, -, -, rfl⟩⟩ := h <;>
      simp [Note.adds, Request.failureCounter?]
  | free u r id =>
    obtain ⟨-, _, rfl⟩ := h
    simp [Note.adds, Request.failureCounter?]
  | lookup u key mode =>
    obtain ⟨-, rfl⟩ := h
    simp [Note.adds, Request.failureCounter?]
  | access b mode =>
    obtain ⟨-, rfl⟩ := h
    simp [Request.failureCounter?]
  | _ => exact h.elim

/-- A refused call has drawn a number only if that number was in use. -/
theorem Request.Fails.drawn (h : request.Fails store why notes)
    (t : TableRef) : (notes.filterMap (Note.drawnFrom? t)).length =
      if request.wastesNumber t why then 1 else 0 := by
  cases request with
  | attach a =>
    obtain ⟨-, rfl⟩ := h
    rfl
  | allocate u r user kernel =>
    obtain ⟨before, rfl, ⟨-, rfl, rfl⟩ | ⟨-, rfl, rfl | rfl⟩ | ⟨_, -, rfl, rfl⟩⟩ := h
    · simp [Note.drawnFrom?, Request.wastesNumber]
    · simp [Note.drawnFrom?, Request.wastesNumber]
    · simp [Note.drawnFrom?, Request.wastesNumber]
    · by_cases hu : u = t <;>
        simp [List.filterMap_cons, Note.drawnFrom?, Request.wastesNumber, hu]
  | free u r id =>
    obtain ⟨-, _, rfl⟩ := h
    rfl
  | lookup u key mode =>
    obtain ⟨-, rfl⟩ := h
    rfl
  | access b mode =>
    obtain ⟨-, rfl⟩ := h
    rfl
  | _ => exact h.elim

end Fails

namespace Service

variable {limits : List Limits} {supply : Supply} {s s' : Service} {action : Action} {h : History}
  {i : CallRef} {request : Request} {why : Failure}

/-- A step leaves every lock as it is but for what its own call holds of it. -/
theorem Locked.lock_step (hs : s.Locked) (hd : s.Does supply (.step i) s') (name : LockName) :
    (s'.store.lockOf name).release i = (s.store.lockOf name).release i := by
  obtain ⟨call, instr, next, hc, hp, hr, -⟩ := hd.calls_step
  obtain ⟨other, mode, l, hl, hlock, -, hfree⟩ | ⟨other, hlock, -⟩ | ⟨hlock, -⟩ :=
    Instr.lock_cases (Job.locks hp) hr
  · rw [hlock]
    split
    · next he =>
      subst he
      have hnot (m : Mode) : ¬ (s.store.lockOf other).Holds i m := by
        rw [hs.holds_iff]
        rintro ⟨c, hi, hm⟩
        cases hc.symm.trans hi
        rw [Call.held, hs.not_dropped hc hp] at hm
        exact hfree m hm
      rw [Lock.release_of_acquire? hl, Lock.release_of_not_holds hnot]
    · rfl
  · rw [hlock]
    split
    · refine Lock.release_of_not_holds fun m hm ↦ ?_
      exact ((Lock.holds_release (hs.nodup name)).mp hm).2 rfl
    · rfl
  · rw [hlock]

/-- A step after which its call may be refused comes from where it may be refused, and spares the
store. -/
theorem Locked.spares {job next : Job} (hs : s.Locked) (hd : s.Does supply (.step i) s')
    (hj : s.job? i = some job) (hnext : s'.job? i = some next) (hf : next.mayFail = true) :
    job.mayFail = true ∧ s.store.Spares i s'.store := by
  obtain ⟨instr, x, hn, hr, hx⟩ := hd.job_step hj
  cases hnext.symm.trans hx
  exact Job.spares hn hr (hs.lock_step hd) hf

/-- A call that may be refused after a history could be refused before it. -/
theorem Locked.mayFail_of_run {job last : Job} (hs : s.Locked) (hr : s.run? h = some s')
    (hj : s.job? i = some job) (hlast : s'.job? i = some last) (hf : last.mayFail = true) :
    job.mayFail = true := by
  induction h generalizing s job with
  | nil =>
    cases hr
    cases hj.symm.trans hlast
    exact hf
  | cons e h ih =>
    obtain ⟨-, u, hu, hr⟩ := run?_cons_eq_some.mp hr
    have hd := does_of_act? hu
    obtain ⟨next, hnext⟩ := hd.exists_job hj
    have hmay := ih (hs.of_does hd) hr hnext
    by_cases hstep : e.2 = .step i
    · rw [hstep] at hd
      exact (hs.spares hd hj hnext hmay).1
    · cases hnext.symm.trans (hd.job_kept hj hstep)
      exact hmay

/-- A step of a call that may be refused in the end spares the store. -/
theorem Locked.spares_of_run {u : Service} {job last : Job} (hs : s.Locked)
    (hd : s.Does supply (.step i) u) (hr : u.run? h = some s') (hj : s.job? i = some job)
    (hlast : s'.job? i = some last) (hf : last.mayFail = true) : s.store.Spares i u.store := by
  obtain ⟨next, hnext⟩ := hd.exists_job hj
  have hmay := (hs.of_does hd).mayFail_of_run hr hnext hlast hf
  exact (hs.spares hd hj hnext hmay).2

/-- The steps of a call by itself spare the store when the call may still be refused after them. -/
theorem Locked.spares_alone {job last : Job} (hs : s.Locked) (hr : s.run? h = some s')
    (halone : ∀ e ∈ h, e.2 = .step i) (hj : s.job? i = some job) (hlast : s'.job? i = some last)
    (hf : last.mayFail = true) : s.store.Spares i s'.store := by
  induction h generalizing s job with
  | nil =>
    cases hr
    exact .refl i _
  | cons e h ih =>
    obtain ⟨-, u, hu, hr⟩ := run?_cons_eq_some.mp hr
    have hd := does_of_act? hu
    rw [halone e (by simp)] at hd
    obtain ⟨next, hnext⟩ := hd.exists_job hj
    exact (hs.spares_of_run hd hr hj hlast hf).trans
      (ih (hs.of_does hd) hr (fun e he ↦ halone e (by simp [he])) hnext)

/-- A call that has not been made holds no lock. -/
theorem Locked.not_holds_of_new (hs : s.Locked) (hnew : s.job? i = none) (name : LockName)
    (mode : Mode) : ¬ (s.store.lockOf name).Holds i mode := by
  rw [hs.holds_iff]
  rintro ⟨call, hc, -⟩
  simp [job?, hc] at hnew

/-- A call that was refused holds no lock. -/
theorem Locked.not_holds_of_refused {job : Job} (hs : s.Locked) (hj : s.job? i = some job)
    (ho : job.outcome? = some (.refused why)) (name : LockName) (mode : Mode) :
    ¬ (s.store.lockOf name).Holds i mode := by
  rw [hs.holds_iff]
  rintro ⟨call, hc, hm⟩
  obtain rfl : call.job = job := by simpa [job?, hc] using hj
  rw [Call.held] at hm
  split at hm
  · cases hm
  · obtain ⟨g, hg, -⟩ := Job.held_of_outcome? ho name mode hm
    cases hg

/-- What is found of a call that has just been made and of what it has come to. -/
private theorem exists_job_of_invoke {o : Outcome}
    (hr : s.run? ((supply, .invoke request) :: h) = some s')
    (ho : s'.outcome? s.calls.size = some o) : ∃ u job last,
      s.act? supply (.invoke request) = some u ∧ u.run? h = some s' ∧ u.store = s.store ∧
        Job.Fresh s.store request job ∧ u.job? s.calls.size = some job ∧
        s'.job? s.calls.size = some last ∧ last.outcome? = some o := by
  obtain ⟨-, u, hu, hr⟩ := run?_cons_eq_some.mp hr
  obtain ⟨call, hc, hlast⟩ := Option.bind_eq_some_iff.mp ho
  cases does_of_act? hu with
  | tend hk _ => cases hk
  | @invoke _ job hj =>
    exact ⟨_, job, call.job, hu, hr, rfl, Job.ofRequest?_eq_some.mp hj, by simp [job?],
      job?_eq_some.mpr ⟨call, hc, rfl⟩, hlast⟩

theorem limits_of_run (hr : s.run? h = some s') : s'.store.limitsOf = s.store.limitsOf :=
  run_induct (P := fun u ↦ u.store.limitsOf = s.store.limitsOf)
    (fun _ _ _ _ hl _ hact ↦ (does_of_act? hact).limits_kept.trans hl) rfl hr

/-- A refused call leaves everything as it was. Whatever happens between its steps, each of them
leaves every index, roster, content, session and registry alone, and every lock but for what the
call itself holds of it, and moves counters and next numbers only by what it notes; at its end the
call holds no lock. All it has noted is its failure, once, by the one counter of its request, and a
number drawn if and only if this number was in use. So when nothing else happens meanwhile, the
store is as it was but for that counter, for that number, and for the log. -/
theorem refusal_spares_store (hs : Reachable limits s)
    (hr : s.run? ((supply, .invoke request) :: h) = some s')
    (ho : s'.outcome? s.calls.size = some (.refused why)) :
    request.Fails s.store why (s.notesOf ((supply, .invoke request) :: h) s.calls.size) ∧
    (∀ before σ after u u', h = before ++ (σ, .step s.calls.size) :: after →
      s.run? ((supply, .invoke request) :: before) = some u →
      u.act? σ (.step s.calls.size) = some u' → u.store.Spares s.calls.size u'.store ∧
        u.store.MovedBy u'.store (u.notesOf [(σ, .step s.calls.size)] s.calls.size)) ∧
    (∀ name mode, ¬ (s'.store.lockOf name).Holds s.calls.size mode) ∧
    ((∀ e ∈ h, e.2 = .step s.calls.size) → s.store.Spares s.calls.size s'.store ∧
      (∀ name, s'.store.lockOf name = s.store.lockOf name) ∧
      (∀ t which, (s'.store.countersOf t).get which = (s.store.countersOf t).get which +
        if request.failureCounter? = some (t, which) then 1 else 0) ∧
      ∀ t, s'.store.nextIdOf t = if request.wastesNumber t why
        then ⟨(s.store.nextIdOf t).number + 1⟩ else s.store.nextIdOf t) := by
  obtain ⟨v, job, last, hv, hrest, hstore, hfresh, hj, hlast, hended⟩ := exists_job_of_invoke hr ho
  have hlocked := hs.locked
  have hlocked' := (hs.run hr).locked
  have hproper : last.Proper := by
    obtain ⟨call, hc, rfl⟩ := job?_eq_some.mp hlast
    exact (hs.run hr).sound.proper hc
  have hmay := hproper.mayFail hended
  have hlv : v.Locked := hlocked.of_does (does_of_act? hv)
  have hnew : s.job? s.calls.size = none := by simp [job?]
  have hfails : request.Fails s.store why
      (s.notesOf ((supply, .invoke request) :: h) s.calls.size) := by
    have hleaves := leaves_of_run hr hnew hlast
    rw [limits_of_run hr] at hleaves
    obtain ⟨x, hx, hsame⟩ := sameTask_of_run hj hrest
    cases hlast.symm.trans hx
    exact Request.fails_of_leaves hfresh hsame hproper hleaves hended
  have hfree := hlocked'.not_holds_of_refused hlast hended
  refine ⟨hfails, fun before σ after u u' hh hu hstep ↦ ?_, hfree, fun halone ↦ ?_⟩
  · -- The call may still be refused after this step, since it is in the end.
    obtain ⟨-, w, hw, hbefore⟩ := run?_cons_eq_some.mp hu
    cases hv.symm.trans hw
    rw [hh] at hrest
    obtain ⟨x, hx, hafter⟩ := run?_append_eq_some.mp hrest
    cases hbefore.symm.trans hx
    obtain ⟨-, y, hy, hafter⟩ := run?_cons_eq_some.mp hafter
    cases hstep.symm.trans hy
    obtain ⟨now, hnow, -⟩ := sameTask_of_run hj hbefore
    exact ⟨(hs.run hu).locked.spares_of_run (does_of_act? hstep) hafter hnow hlast hmay,
      movedBy_alone (run?_cons_eq_some.mpr ⟨rfl, u', hstep, rfl⟩) (by simp)⟩
  · have hspares := hlv.spares_alone hrest halone hj hlast hmay
    have hmoved := movedBy_alone hrest halone
    have hnotes : v.notesOf h s.calls.size =
        s.notesOf ((supply, .invoke request) :: h) s.calls.size := by
      rw [notesOf, notesOf, notes_cons hv]
      rfl
    rw [hnotes] at hmoved
    rw [hstore] at hspares hmoved
    refine ⟨hspares, fun name ↦ ?_, fun t which ↦ ?_, fun t ↦ ?_⟩
    · rw [← Lock.release_of_not_holds (hfree name),
        ← Lock.release_of_not_holds (hlocked.not_holds_of_new hnew name)]
      exact hspares.lock name
    · rw [hmoved.counters, hfails.adds]
    · rw [hmoved.nextId, hfails.drawn]
      split <;> simp

/-- The first number of a table is set to be drawn again while its buffer is still there. -/
def drawnAgain : History :=
  History.allocated ⟨7⟩ 4 4 ++ [(.addressable, .setNextId 0 ⟨0⟩)]

/-- The allocation that draws it is refused: it has counted that, and the next number has moved on,
but the index and the roster are as they were. -/
theorem duplicate_leaves_buffer : ∃ s s', (withTables [{}]).run? drawnAgain = some s ∧
    s.run? (History.call (.allocate 0 0 8 8) 2 13) = some s' ∧
    s'.outcome? 2 = some (.refused (.duplicateKey ⟨⟨7⟩, ⟨0⟩⟩)) ∧
    s'.store.indexOf 0 = s.store.indexOf 0 ∧ s'.store.rosterOf 0 = s.store.rosterOf 0 ∧
    (s'.store.countersOf 0).get .allocationFailures =
      (s.store.countersOf 0).get .allocationFailures + 1 ∧
    s'.store.nextIdOf 0 = ⟨(s.store.nextIdOf 0).number + 1⟩ := by
  have hrun : (((withTables [{}]).run? drawnAgain).bind fun s ↦
      (s.run? (History.call (.allocate 0 0 8 8) 2 13)).map fun s' ↦ (s.calls.size, s'.outcome? 2)) =
      some (2, some (.refused (.duplicateKey ⟨⟨7⟩, ⟨0⟩⟩))) := by
    decide +kernel
  obtain ⟨s, hs, h⟩ := Option.bind_eq_some_iff.mp hrun
  obtain ⟨s', hs', h⟩ := Option.map_eq_some_iff.mp h
  obtain ⟨hsize, ho⟩ := Prod.mk.inj h
  have hended := ho
  rw [← hsize] at hended
  obtain ⟨-, -, -, halone⟩ := refusal_spares_store ⟨drawnAgain, hs⟩ hs' hended
  obtain ⟨hspares, -, hcounters, hnext⟩ := halone fun e he ↦ by
    rw [hsize, List.eq_of_mem_replicate he]
  exact ⟨s, s', hs, hs', ho, hspares.index 0, hspares.roster 0, hcounters 0 .allocationFailures,
    hnext 0⟩

end Service

end SessionBuffers
