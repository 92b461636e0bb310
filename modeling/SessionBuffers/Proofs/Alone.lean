import SessionBuffers.Proofs.Disposal
import SessionBuffers.Proofs.Simulation
import SessionBuffers.Proofs.Waiting

/-!
# One call after the other

A call that is made while no other is under way runs to its end, provided that the guards clients
hold leave room for it: nobody else has a lock that it wants (`Coupled.isSome_step?`), and what it
has left to do becomes less with every step (`Job.left_lt`). On its way it takes effect exactly
once, so the ideal state says when a service can perform a deed (`Coupled.performs`).
-/

namespace SessionBuffers

/-! ### How much is left to do -/

def Attachment.Phase.left : Phase → Nat
  | start => 5
  | enroll _ _ => 4
  | count _ _ => 3
  | report _ _ => 2
  | «open» _ _ => 1
  | ended _ => 0

def Allocation.Phase.left : Phase → Nat
  | checkLimits => 14
  | provide => 13
  | lockContent _ => 12
  | lockRegistry _ => 11
  | lockTable _ => 10
  | reserve _ => 9
  | draw _ => 8
  | insert _ _ => 7
  | unlockTable _ _ => 6
  | enlist _ _ | abandonRegistry _ _ => 5
  | unlockRegistry _ _ | abandonTable _ _ => 4
  | unlockContent _ _ | abandonContent _ _ => 3
  | count _ _ | countFailure _ => 2
  | report _ _ | reportFailure _ => 1
  | ended _ => 0

def Removal.Phase.left : Phase → Nat
  | lockRegistry => 13
  | lockTable => 12
  | find => 11
  | checkOwner _ => 10
  | lockContent _ => 9
  | erase _ => 8
  | forget _ => 7
  | unlockRegistry _ => 6
  | unlockTable _ => 5
  | dispose _ | missRegistry _ => 4
  | unlockContent _ | missTable _ => 3
  | count | countMiss _ => 2
  | report | reportMiss _ => 1
  | ended _ => 0

/-- What a teardown has left to do, with so many keys listed while it has not drained them. -/
def Teardown.Phase.left (listed : Nat) : Phase → Nat
  | finish _ => 8 * listed + 10
  | lockRegistry => 8 * listed + 9
  | lockTable => 8 * listed + 8
  | close => 8 * listed + 7
  | drain _ => 8 * listed + 6
  | find _ w => 8 * w.todo.length + 13
  | reportMissing _ w | lockContent _ _ w => 8 * w.todo.length + 12
  | erase _ _ w => 8 * w.todo.length + 11
  | dispose _ _ w => 8 * w.todo.length + 10
  | unlockContent _ _ w => 8 * w.todo.length + 9
  | unlockRegistry _ => 5
  | unlockTable _ => 4
  | countReleased _ => 3
  | countClosed _ => 2
  | report _ => 1
  | ended _ => 0

theorem Teardown.left_resume (listed : Nat) (w : Sweep) :
    (Phase.resume w).left listed = 8 * w.todo.length + 5 := by
  unfold Phase.resume
  split
  · next h => simp [Phase.left, h]
  · next h => simp [Phase.left, h, Nat.mul_add]

def Lookup.Phase.left : Phase → Nat
  | lockTable => 5
  | find => 4
  | lockContent _ | missTable => 3
  | unlockTable _ | countMiss => 2
  | count _ | reportMiss => 1
  | ended _ => 0

def Access.Phase.left : Phase → Nat
  | lockContent => 3
  | check => 2
  | unlockReleased => 1
  | ended _ => 0

def Inspection.Phase.left : Phase → Nat
  | lockTable => 3
  | read => 2
  | unlockTable _ => 1
  | ended _ => 0

def RosterCall.Phase.left : Phase → Nat
  | lock | tryLock => 3
  | act => 2
  | unlock _ => 1
  | ended _ => 0

def Drawing.Phase.left : Phase → Nat
  | draw => 1
  | ended _ => 0

namespace Job

/-- How much a job has left to do at most. -/
def left (s : Store) : Job → Nat
  | attaching _ phase => phase.left
  | allocating _ phase => phase.left
  | freeing _ phase => phase.left
  | tearingDown d phase => phase.left (s.rosterOf d.registry).toList.length
  | lookingUp _ phase => phase.left
  | accessing _ phase => phase.left
  | inspecting _ phase => phase.left
  | editing _ phase => phase.left
  | drawing _ phase => phase.left

variable {supply : Supply} {who : CallRef} {s s' : Store} {job next : Job} {instr : Instr Job}

/-- A teardown has less left to do after each step. -/
private theorem left_lt_teardown {d : Teardown} {phase : Teardown.Phase}
    {step : Instr Teardown.Phase} (hp : d.progress phase = .next step)
    (hr : (step.map (.tearingDown d)).run supply who s = some (next, s')) :
    next.left s' < left s (.tearingDown d phase) := by
  have hroster := (Instr.changes_of_run hr).roster d.registry
  cases phase with
  | finish c =>
    cases hp
    obtain ⟨_, -, ⟨-, rfl, -⟩ | ⟨-, rfl, -⟩⟩ := Instr.run_finish.mp hr
    all_goals simp [left, Teardown.Phase.left, hroster, Instr.map, Instr.onRoster]
  | lockRegistry =>
    cases hp
    obtain ⟨-, _, -, rfl, -⟩ := Instr.run_acquire.mp hr
    simp [left, Teardown.Phase.left, hroster, Instr.map, Instr.onRoster]
  | lockTable =>
    cases hp
    obtain ⟨-, _, -, rfl, -⟩ := Instr.run_acquire.mp hr
    simp [left, Teardown.Phase.left, hroster, Instr.map, Instr.onRoster]
  | close =>
    cases hp
    obtain ⟨-, rfl, -⟩ := Instr.run_close.mp hr
    simp [left, Teardown.Phase.left, hroster, Instr.map, Instr.onRoster, Roster.close,
      Roster.toList]
  | drain first =>
    cases hp
    obtain ⟨-, rfl, -⟩ := Instr.run_drain.mp hr
    simp only [Function.comp, left, Teardown.left_resume]
    simp [Teardown.Phase.left, Teardown.Sweep.start]
  | find key w =>
    cases hp
    obtain ⟨-, rfl, -⟩ := Instr.run_readIndex.mp hr
    dsimp only [Function.comp]
    split <;> simp [left, Teardown.Phase.left]
  | reportMissing key w =>
    cases hp
    obtain ⟨rfl, -⟩ := Instr.run_log.mp hr
    simp only [left, Teardown.left_resume]
    simp [Teardown.Phase.left, Teardown.Sweep.skip]
  | unlockContent key b w =>
    cases hp
    obtain ⟨-, rfl, -⟩ := Instr.run_release.mp hr
    simp only [left, Teardown.left_resume]
    simp [Teardown.Phase.left, Teardown.Sweep.take]
  | countReleased w =>
    cases hp
    obtain ⟨-, rfl, -⟩ := Instr.run_count.mp hr
    split <;> simp [left, Teardown.Phase.left]
  | ended o => cases hp
  | _ =>
    cases hp
    refine Instr.Always.of_run (P := fun next ↦ next.left s' < _) ?_ hr
    simp [Instr.Always, Instr.map, left, Teardown.Phase.left]

private theorem left_attachment {a : Attachment} {phase : Attachment.Phase}
    {step : Instr Attachment.Phase} (hp : a.progress phase = .next step) :
    step.Always fun x ↦ left s' (.attaching a x) < left s (.attaching a phase) := by
  cases phase with
  | start =>
    simp only [Attachment.progress] at hp
    split at hp <;> cases hp <;>
      simp [Instr.Always, Attachment.enroll, left, Attachment.Phase.left]
  | enroll t capacity =>
    cases hp
    simp [Instr.Always, Attachment.enroll, left, Attachment.Phase.left]
  | report t r =>
    cases hp
    unfold Attachment.logged
    simp only [Instr.Always]
    split <;> simp [left, Attachment.Phase.left]
  | ended o => cases hp
  | _ =>
    cases hp
    simp [Instr.Always, left, Attachment.Phase.left]

private theorem left_allocation {a : Allocation} {phase : Allocation.Phase}
    {step : Instr Allocation.Phase} (hp : a.progress phase = .next step) :
    step.Always fun x ↦ left s' (.allocating a x) < left s (.allocating a phase) := by
  cases phase with
  | checkLimits =>
    cases hp
    intro limits
    dsimp only
    split <;> simp [left, Allocation.Phase.left]
  | ended o => cases hp
  | _ =>
    cases hp
    simp [Instr.Always, left, Allocation.Phase.left]

private theorem left_removal {f : Removal} {phase : Removal.Phase} {step : Instr Removal.Phase}
    (hp : f.progress phase = .next step) :
    step.Always fun x ↦ left s' (.freeing f x) < left s (.freeing f phase) := by
  cases phase with
  | find =>
    cases hp
    intro index
    dsimp only
    split <;> simp [left, Removal.Phase.left]
  | checkOwner b =>
    cases hp
    intro roster
    dsimp only
    split <;> simp [left, Removal.Phase.left]
  | ended o => cases hp
  | _ =>
    cases hp
    simp [Instr.Always, left, Removal.Phase.left]

private theorem left_lookup {l : Lookup} {phase : Lookup.Phase} {step : Instr Lookup.Phase}
    (hp : l.progress phase = .next step) :
    step.Always fun x ↦ left s' (.lookingUp l x) < left s (.lookingUp l phase) := by
  cases phase with
  | find =>
    cases hp
    intro index
    dsimp only
    split <;> simp [left, Lookup.Phase.left]
  | ended o => cases hp
  | _ =>
    cases hp
    simp [Instr.Always, left, Lookup.Phase.left]

private theorem left_access {a : Access} {phase : Access.Phase} {step : Instr Access.Phase}
    (hp : a.progress phase = .next step) :
    step.Always fun x ↦ left s' (.accessing a x) < left s (.accessing a phase) := by
  cases phase with
  | check =>
    cases hp
    intro content
    dsimp only
    split <;> simp [left, Access.Phase.left]
  | ended o => cases hp
  | _ =>
    cases hp
    simp [Instr.Always, left, Access.Phase.left]

private theorem left_inspection {q : Inspection} {phase : Inspection.Phase}
    {step : Instr Inspection.Phase} (hp : q.progress phase = .next step) :
    step.Always fun x ↦ left s' (.inspecting q x) < left s (.inspecting q phase) := by
  cases phase with
  | ended o => cases hp
  | _ =>
    cases hp
    simp [Instr.Always, left, Inspection.Phase.left]

private theorem left_rosterCall {c : RosterCall} {phase : RosterCall.Phase}
    {step : Instr RosterCall.Phase} (hp : c.progress phase = .next step) :
    step.Always fun x ↦ left s' (.editing c x) < left s (.editing c phase) := by
  cases phase with
  | act =>
    cases hp
    unfold RosterCall.act
    split <;> simp [Instr.Always, left, RosterCall.Phase.left]
  | ended o => cases hp
  | _ =>
    cases hp
    simp [Instr.Always, left, RosterCall.Phase.left]

private theorem left_drawing {d : Drawing} {phase : Drawing.Phase} {step : Instr Drawing.Phase}
    (hp : d.progress phase = .next step) :
    step.Always fun x ↦ left s' (.drawing d x) < left s (.drawing d phase) := by
  cases phase with
  | ended o => cases hp
  | _ =>
    cases hp
    simp [Instr.Always, left, Drawing.Phase.left]

/-- A job has less left to do after each step. -/
theorem left_lt (hn : job.progress = .next instr)
    (hr : instr.run supply who s = some (next, s')) : next.left s' < job.left s := by
  cases job with
  | tearingDown d phase =>
    obtain ⟨step, hp, rfl⟩ := Progress.map_eq_next.mp hn
    exact left_lt_teardown hp hr
  | _ _ phase =>
    obtain ⟨step, hp, rfl⟩ := Progress.map_eq_next.mp hn
    refine Instr.Always.of_run (P := fun next ↦ next.left s' < _) ?_ hr
    rw [Instr.always_map]
    clear hn hr
    revert hp
    first
      | exact left_attachment
      | exact left_allocation
      | exact left_removal
      | exact left_lookup
      | exact left_access
      | exact left_inspection
      | exact left_rosterCall
      | exact left_drawing

/-- A job that has ended has no storage that is still to be set up. -/
theorem unborn?_of_outcome? {o : Outcome} (h : job.outcome? = some o) : job.unborn? = none := by
  cases hu : job.unborn? with
  | none => rfl
  | some b =>
    cases (owned?_of_unborn? hu).symm.trans (owned?_of_outcome? h)

/-- A job that has been granted content ends with the guard on it. -/
theorem outcome_of_granted? {o : Outcome} {g : Guard} (hg : job.granted? = some g)
    (ho : job.outcome? = some o) : o = .guard g := by
  have hended := outcome?_eq_some.mp ho
  unfold granted? at hg
  split at hg <;> cases hg <;> cases hended <;> rfl

/-- A request whose tables and registries exist can be begun. -/
theorem isSome_ofRequest? {p : Ideal} {request : Request} (hnames : p.Names request)
    (ht : ∀ t : TableRef, t < p.limits.size → t < s.tables.size)
    (hr : ∀ r : RegistryRef, r < p.sessions.size → r < s.registries.size) :
    (ofRequest? s request).isSome := by
  cases request with
  | attach a =>
    obtain ⟨session, purpose⟩ := a
    cases purpose with
    | alone capacity => rfl
    | table t | session t => simp [ofRequest?, ht t hnames]
  | allocate t r user kernel | free t r id | teardown t r =>
    simp [ofRequest?, ht t hnames.1, hr r hnames.2]
  | lookup t key mode | inspect t question | draw t => simp [ofRequest?, ht t hnames]
  | roster r action => simp [ofRequest?, hr r hnames]
  | endSession c | access handle mode => exact hnames.elim

end Job

namespace Service

variable {limits : List Limits} {supply : Supply} {s s' : Service} {i j : CallRef} {job : Job}
  {instr : Instr Job} {action : Action} {request : Request} {h k : History} {p : Ideal}
  {b : StorageRef} {mode : Mode} {g : Guard}

/-- What has been supplied may be forgotten when no call is under way. -/
theorem Coupled.forget (hc : s.Coupled h p) (hidle : s.Idle) : s.Coupled [] p := by
  have hnone {j : CallRef} {job : Job} (hj : s.job? j = some job) : job.unborn? = none := by
    obtain ⟨o, ho, -⟩ := hidle.outcome? hj
    exact Job.unborn?_of_outcome? ho
  refine hc.rebase (fun j job hj hu ↦ ?_) fun j a b hj ↦ ?_
  · simp [hnone hj] at hu
  · cases hnone hj

/-- An answer that has been given is the ideal one. -/
theorem Coupled.answer_of_outcome? (hc : s.Coupled h p) {o : Outcome}
    (ho : s.outcome? i = some o) : p.answer i = some o := by
  obtain ⟨call, hcall, ho⟩ := Option.bind_eq_some_iff.mp ho
  rw [hc.answer, job?, hcall]
  exact Job.answer?_of_outcome? ho

/-- When no call is under way there are no other ideal answers. -/
theorem Coupled.answer_eq_outcome? (hc : s.Coupled h p) (hidle : s.Idle) (i : CallRef) :
    p.answer i = s.outcome? i := by
  cases hj : s.job? i with
  | none =>
    have hcall : s.calls[i]? = none := by simpa [job?] using hj
    simp [hc.answer, hj, Service.outcome?, hcall]
  | some job =>
    obtain ⟨o, -, hs⟩ := hidle.outcome? hj
    rw [hc.answer_of_outcome? hs, hs]

/-- When no call is under way the ideal guards are those that clients hold. -/
theorem Coupled.guard_eq_guard? (hc : s.Coupled h p) (hs : s.Sound) (hidle : s.Idle)
    (i : CallRef) : p.guard i = s.guard? i := by
  rw [hc.guard]
  refine Option.ext fun g ↦ ⟨fun hg ↦ ?_, hs.granted?_of_guard?⟩
  obtain ⟨call, hcall, hdropped, hgranted⟩ := granted?_eq_some.mp hg
  obtain ⟨o, ho, -⟩ := hidle.outcome? (job?_eq_some.mpr ⟨call, hcall, rfl⟩)
  obtain rfl := Job.outcome_of_granted? hgranted ho
  exact guard?_eq_some.mpr ⟨call, hcall, Call.guard?_eq_some.mpr ⟨hdropped, ho⟩⟩

/-- When no call is under way nothing is owed. -/
theorem Coupled.index_of_idle (hc : s.Coupled h p) (hidle : s.Idle) (t : TableRef) :
    p.index t = s.store.indexOf t := by
  refine hc.index t fun j job hj ↦ ?_
  obtain ⟨o, ho, -⟩ := hidle.outcome? hj
  simp [(Job.no_debt_of_outcome? ho).1]

theorem Coupled.roster_of_idle (hc : s.Coupled h p) (hidle : s.Idle) (r : RegistryRef) :
    p.roster r = s.store.rosterOf r := by
  refine hc.roster r fun j job hj ↦ ?_
  obtain ⟨o, ho, -⟩ := hidle.outcome? hj
  simp [(Job.no_debt_of_outcome? ho).2]

theorem Coupled.content_of_idle (hc : s.Coupled h p) (hidle : s.Idle)
    (hlive : (s.store.contentOf b).released = false) : p.content b = s.store.contentOf b := by
  refine hc.content b hlive fun j job hj ↦ ?_
  obtain ⟨o, ho, -⟩ := hidle.outcome? hj
  simp [Job.unborn?_of_outcome? ho]

theorem Coupled.mem_born_iff (hc : s.Coupled h p) (hidle : s.Idle) :
    b ∈ p.born ↔ s.store.Has (.content b) := by
  refine ⟨fun hb ↦ (hc.born b hb).1, fun hb ↦ (hc.settled b hb).resolve_right ?_⟩
  rintro ⟨j, job, hj, hu⟩
  obtain ⟨o, ho, -⟩ := hidle.outcome? hj
  rw [Job.unborn?_of_outcome? ho] at hu
  cases hu

/-! ### A call that is alone can go on -/

/-- The guards on content that a call wants leave room for it, when they left room for its request
before it took effect. -/
private theorem Coupled.admits_of_wants (hc : s.Coupled h p) (hs : s.Sound)
    (hj : s.job? i = some job) (hn : job.progress = .next instr)
    (hw : instr.wants = some (.content b, mode)) (hp : p.answer i = none → p.Permits job.request) :
    p.Admits b mode := by
  have hknows := hs.knows_job? hj
  have hanswer := hc.answer_eq hj
  have howes := hc.owes i job hj
  have hnamed := hc.named i job _ hj hn
  cases job with
  | accessing a phase => cases hc.atomic i _ _ hj hn
  | attaching a phase =>
    obtain ⟨step, hstep, rfl⟩ := Progress.map_eq_next.mp hn
    rw [Instr.wants_map] at hw
    cases phase with
    | start =>
      simp only [Attachment.progress] at hstep
      split at hstep <;> cases hstep <;> cases hw
    | _ => cases hstep <;> cases hw
  | editing c phase =>
    obtain ⟨step, hstep, rfl⟩ := Progress.map_eq_next.mp hn
    rw [Instr.wants_map] at hw
    cases phase with
    | act =>
      cases hstep
      unfold RosterCall.act at hw
      split at hw <;> cases hw
    | _ => cases hstep <;> cases hw
  | inspecting q phase | drawing q phase =>
    obtain ⟨step, hstep, rfl⟩ := Progress.map_eq_next.mp hn
    rw [Instr.wants_map] at hw
    cases phase <;> cases hstep <;> cases hw
  | allocating a phase =>
    obtain ⟨step, hstep, rfl⟩ := Progress.map_eq_next.mp hn
    rw [Instr.wants_map] at hw
    cases phase <;> cases hstep <;> cases hw
    rintro l g hg rfl
    exact absurd rfl (hs.not_unborn_of_granted? ((hc.guard l).symm.trans hg) hj)
  | freeing f phase =>
    obtain ⟨step, hstep, rfl⟩ := Progress.map_eq_next.mp hn
    rw [Instr.wants_map] at hw
    cases phase <;> cases hstep <;> cases hw
    have hindex : p.index f.table = s.store.indexOf f.table :=
      hc.index_of_held hs hj hn .exclusive (by simp [Job.held, Removal.held])
        (by simp [Job.indexDebt?])
    have hroster : p.roster f.registry = s.store.rosterOf f.registry :=
      hc.roster_of_held hs hj hn .exclusive (by simp [Job.held, Removal.held])
        (by simp [Job.rosterDebt?])
    have hkey : (⟨p.sessionOf f.registry, f.key.buffer⟩ : Key) = f.key := by
      rw [hc.sessionOf, ← show f.key.session = _ from hnamed]
    exact hp hanswer (by rw [hkey, hroster]; exact hknows.2) b
      (by rw [hkey, hindex]; exact hknows.1)
  | tearingDown d phase =>
    obtain ⟨step, hstep, rfl⟩ := Progress.map_eq_next.mp hn
    rw [Instr.wants_map] at hw
    cases phase with
    | lockContent key c w =>
      cases hstep
      cases hw
      have hswept := howes w _ rfl
      refine hp hanswer key b ?_ ?_
      · rw [← Roster.mem_toList, hswept.keys]
        simp
      · have hfound : (s.store.indexOf d.table)[key]? = some b := hknows
        rw [hswept.index, Index.getElem?_without] at hfound
        split at hfound
        · cases hfound
        · exact hfound
    | _ => cases hstep <;> cases hw
  | lookingUp l phase =>
    obtain ⟨step, hstep, rfl⟩ := Progress.map_eq_next.mp hn
    rw [Instr.wants_map] at hw
    cases phase <;> cases hstep <;> cases hw
    have hindex : p.index l.table = s.store.indexOf l.table :=
      hc.index_of_held hs hj hn _ (List.mem_singleton_self _) (by simp [Job.indexDebt?])
    exact hp hanswer b (by rw [hindex]; exact hknows)

/-- A call that is alone can take its next step, when the guards that clients hold leave room for
its request. -/
theorem Coupled.isSome_step? (hc : s.Coupled h p) (hr : Reachable limits s)
    (hlone : ∀ j, s.InFlight j → j = i) (hj : s.job? i = some job)
    (hn : job.progress = .next instr) (hp : p.answer i = none → p.Permits job.request)
    (supply : Supply) : (s.step? supply i).isSome := by
  have hs := hr.sound
  obtain ⟨call, hcall, rfl⟩ := job?_eq_some.mp hj
  rw [hr.isSome_step? hcall hn]
  cases hw : instr.wants with
  | none => rfl
  | some w =>
    obtain ⟨name, mode⟩ := w
    have hwants : s.wants i = some (name, mode) := by simp [wants, hcall, Job.wants, hn, hw]
    by_contra hfull
    have hfull : (s.store.lockOf name).admits mode = false := by simpa using hfull
    obtain ⟨j, m, hholds⟩ := Lock.exists_holds_of_not_admits hfull
    -- Only clients hold what the call wants, and their guards leave room.
    obtain ⟨g, hg, rfl⟩ | ⟨hflight, hlater⟩ :=
      hs.holder hwants ((hs.locked.holds_iff name j m).mp hholds)
    · have hgranted := hs.granted?_of_guard? hg
      obtain ⟨rfl, hshared⟩ := hc.admits_of_wants hs hj hn hw hp j g
        ((hc.guard j).trans hgranted) rfl
      have hheld := (hs.locked.holds_iff _ _ _).mpr (holds_of_granted? hgranted)
      rw [hshared] at hheld
      cases hl : s.store.lockOf (.content g.handle.storage) with
      | shared holders =>
        rw [hl] at hfull
        cases hfull
      | exclusive holder =>
        rw [hl] at hheld
        cases hheld
    · obtain rfl := hlone j hflight
      exact Nat.lt_irrefl _ (hlater name mode hwants)

/-! ### Whole calls -/

/-- Nothing is under way when the only call that might be has ended. -/
theorem idle_of_outcome? (hlone : ∀ j, s.InFlight j → j = i) {o : Outcome}
    (hj : s.job? i = some job) (ho : job.outcome? = some o) : s.Idle := by
  intro j hflight
  obtain rfl := hlone j hflight
  obtain ⟨other, hother, hnone⟩ := hflight
  cases hj.symm.trans hother
  rw [ho] at hnone
  cases hnone

/-- A call that is alone runs to its end, and on its way it takes effect unless it has done so
before. The induction is on what it has left to do. -/
theorem Coupled.runs (n : Nat) : ∀ {s : Service} {k : History} {p : Ideal} {job : Job},
    s.Coupled k p → Reachable limits s → (∀ j, s.InFlight j → j = i) → s.job? i = some job →
    (p.answer i = none → p.Permits job.request) → (∀ e ∈ k, e.1 = supply) →
    job.left s.store = n → ∃ m s' p' job', s.run? (List.replicate m (supply, .step i)) = some s' ∧
      s'.job? i = some job' ∧ job'.outcome?.isSome ∧ (∀ j, s'.InFlight j → j = i) ∧
      s'.calls.size = s.calls.size ∧
      s'.Coupled (k ++ List.replicate m (supply, .step i)) p' ∧
      (p.answer i ≠ none ∧ p' = p ∨ ∃ b, p.Ready (.call i supply b job.request) ∧
        p' = p.after (.call i supply b job.request)) := by
  induction n using Nat.strong_induction_on with
  | _ n ih =>
    intro s k p job hc hr hlone hj hp hk hleft
    cases hn : job.progress with
    | ended o =>
      have ho : job.outcome? = some o := Job.outcome?_eq_some.mpr hn
      refine ⟨0, s, p, job, rfl, hj, by rw [ho]; rfl, hlone, rfl, by simpa using hc, .inl ⟨?_, rfl⟩⟩
      rw [hc.answer_eq hj, Job.answer?_of_outcome? ho]
      simp
    | next instr =>
      obtain ⟨s₁, hs₁⟩ := Option.isSome_iff_exists.mp (hc.isSome_step? hr hlone hj hn hp supply)
      have hact : s.act? supply (.step i) = some s₁ := hs₁
      have hd := does_of_act? hact
      have hr₁ : Reachable limits s₁ := hr.act rfl hact
      obtain ⟨job₀, p₁, hj₀, htakes, hc₁⟩ := hc.step hr hd
      cases hj.symm.trans hj₀
      obtain ⟨instr', next, hn', hrun, hj₁⟩ := hd.job_step hj
      cases hn.symm.trans hn'
      have hrequest := ((Job.kept_of_next hn).of_run hrun).1
      have hsize : s₁.calls.size = s.calls.size := by
        obtain ⟨call, _, _, _, hcall, -, -, rfl⟩ := step?_eq_some.mp hs₁
        simp
      have hlone₁ (j : CallRef) (hflight : s₁.InFlight j) : j = i := by
        by_contra hne
        obtain ⟨other, hother, hnone⟩ := hflight
        obtain ⟨hother, -⟩ | ⟨_, he, -⟩ | ⟨_, _, he, -⟩ := hd.job_cases hother
        · exact hne (hlone j ⟨other, hother, hnone⟩)
        · cases he
        · cases he
          exact hne rfl
      have hk₁ : ∀ e ∈ k ++ [(supply, .step i)], e.1 = supply := by
        intro e he
        obtain he | he := List.mem_append.mp he
        · exact hk e he
        · rw [List.mem_singleton.mp he]
      have hp₁ : p₁.answer i = none → p₁.Permits next.request := by
        cases htakes with
        | rest => rwa [hrequest]
        | effect _ _ => simp [Ideal.after, Ideal.answered]
      obtain ⟨m, s', p', job', hrun', hj', ho, hlone', hsize', hc', hends⟩ :=
        ih (next.left s₁.store) (hleft ▸ Job.left_lt hn hrun) hc₁ hr₁ hlone₁ hj₁ hp₁ hk₁ rfl
      refine ⟨m + 1, s', p', job', ?_, hj', ho, hlone', hsize'.trans hsize, ?_, ?_⟩
      · exact run?_cons_eq_some.mpr ⟨rfl, s₁, hact, hrun'⟩
      · simpa [List.replicate_succ] using hc'
      · rw [hrequest] at hends
        cases htakes with
        | rest => exact hends
        | @effect σ b hσ hready =>
          obtain rfl : σ = supply := by
            obtain ⟨σ₁, σ₂, hσ₁, hσ₂, rfl⟩ := hσ
            rw [show σ₁ = supply from hk₁ _ hσ₁, show σ₂ = supply from hk₁ _ hσ₂]
          obtain ⟨-, rfl⟩ | ⟨c, hagain, -⟩ := hends
          · exact .inr ⟨b, hready, rfl⟩
          · have hnone : (p.after (.call i σ b job.request)).answer i = none := hagain.1
            simp [Ideal.after, Ideal.answered] at hnone

/-- A service with nothing under way can perform every deed that can be done to the ideal state:
a call runs to its end. -/
theorem Coupled.performs (hc : s.Coupled h p) (hr : Reachable limits s)
    (hidle : s.Idle) (ha : request.isAtomic = true) (hnames : p.Names request)
    (hp : p.Permits request) (supply : Supply) :
    ∃ m s' b, s.run? ((supply, .invoke request) ::
        List.replicate m (supply, .step s.calls.size)) = some s' ∧
      s'.Idle ∧ s'.calls.size = s.calls.size + 1 ∧ p.Ready (.call s.calls.size supply b request) ∧
      s'.Coupled [] (p.after (.call s.calls.size supply b request)) := by
  have hallows : s.allows (.invoke request) = true := by
    cases request with
    | access handle mode => cases ha
    | _ => rfl
  obtain ⟨job, hjob⟩ := Option.isSome_iff_exists.mp (Job.isSome_ofRequest? hnames
    (fun t ht ↦ Store.has_table.mp (hc.has_table.mpr ht))
    fun r hr ↦ Store.has_registry.mp (hc.has_registry.mpr hr))
  have hact : s.act? supply (.invoke request) =
      some { s with calls := s.calls.push { job } } := by simp [act?, invoke?, hjob]
  have hrequest := (Job.begins_of_ofRequest? ha hjob).1
  obtain ⟨p₁, htakes, hc₁⟩ := (hc.forget hidle).invoke ha (does_of_act? hact)
  have hj₁ : { s with calls := s.calls.push { job } }.job? s.calls.size = some job := by simp [job?]
  have hlone (j : CallRef) (hflight : { s with calls := s.calls.push { job } }.InFlight j) :
      j = s.calls.size := by
    by_contra hne
    obtain ⟨other, hother, hnone⟩ := hflight
    simp only [job?, Array.getElem?_push, if_neg hne] at hother
    exact hidle j ⟨other, hother, hnone⟩
  have hnone : ∀ e ∈ [(supply, Action.invoke request)], e.1 = supply := by simp
  obtain ⟨m, s', p', job', hrun, hj', ho, hlone', hsize, hc', hends⟩ := Coupled.runs _ hc₁
    (hr.act hallows hact) hlone hj₁ (by
      rw [hrequest]
      cases htakes with
      | rest => exact fun _ ↦ hp
      | effect _ _ => simp [Ideal.after, Ideal.answered]) hnone rfl
  obtain ⟨o, ho⟩ := Option.isSome_iff_exists.mp ho
  have hidle' := idle_of_outcome? hlone' hj' ho
  have hsize' : s'.calls.size = s.calls.size + 1 := by simpa using hsize
  have hready : ∃ b, p.Ready (.call s.calls.size supply b request) ∧
      p' = p.after (.call s.calls.size supply b request) := by
    rw [hrequest] at hends
    cases htakes with
    | rest =>
      obtain ⟨hanswered, -⟩ | hready := hends
      · exact absurd (by simp [hc.answer, job?]) hanswered
      · exact hready
    | @effect σ b hσ hready =>
      obtain rfl : σ = supply := hσ
      obtain ⟨-, rfl⟩ | ⟨c, hagain, -⟩ := hends
      · exact ⟨b, hready, rfl⟩
      · have hnone : (p.after (.call s.calls.size σ b request)).answer s.calls.size = none :=
          hagain.1
        simp [Ideal.after, Ideal.answered] at hnone
  obtain ⟨b, hready, rfl⟩ := hready
  exact ⟨m, s', b, run?_cons_eq_some.mpr ⟨hallows, _, hact, hrun⟩, hidle', hsize', hready,
    hc'.forget hidle'⟩

/-- A service with nothing under way can perform what can be done to the ideal state at once. -/
theorem Coupled.acts (hc : s.Coupled h p) (hs : s.Sound) (hidle : s.Idle)
    (hready : p.Ready (.act action)) (supply : Supply) :
    ∃ s', s.act? supply action = some s' ∧ s'.Idle ∧ s'.calls.size = s.calls.size ∧
      s'.Coupled [] (p.after (.act action)) := by
  obtain ⟨s', hact⟩ : ∃ s', s.act? supply action = some s' := by
    cases action with
    | invoke request | step i => exact hready.elim
    | dropGuard i =>
      obtain ⟨g, hg⟩ := Option.isSome_iff_exists.mp hready
      have hg : s.guard? i = some g := (hc.guard_eq_guard? hs hidle i).symm.trans hg
      have hhas := Store.has_of_unreleased (hs.live_of_guard? hg)
      simp [act?, dropGuard?, hg, Store.release?, Store.lock?_of_has hhas]
    | edit i which e =>
      obtain ⟨g, hg, hmode, hedit⟩ := hready
      have hg : s.guard? i = some g := (hc.guard_eq_guard? hs hidle i).symm.trans hg
      obtain ⟨storage, hstorage⟩ :=
        Store.has_content_iff.mp (Store.has_of_unreleased (hs.live_of_guard? hg))
      rw [(hc.content_under_guard hs hg).2, Store.contentOf_eq hstorage, Content.edit?,
        Option.isSome_map] at hedit
      obtain ⟨region, hregion⟩ := Option.isSome_iff_exists.mp hedit
      simp [act?, edit?, content?, hg, hstorage, hregion, hmode]
    | swap i j =>
      obtain ⟨g, f, hg, hf, hne, hm, hn⟩ := hready
      have hg : s.guard? i = some g := (hc.guard_eq_guard? hs hidle i).symm.trans hg
      have hf : s.guard? j = some f := (hc.guard_eq_guard? hs hidle j).symm.trans hf
      have hcontent := (content?_eq_some hg).mpr
        ⟨Store.has_of_unreleased (hs.live_of_guard? hg), rfl⟩
      have hother := (content?_eq_some hf).mpr
        ⟨Store.has_of_unreleased (hs.live_of_guard? hf), rfl⟩
      simp [act?, swap?, hg, hf, hcontent, hother, hne, hm, hn]
    | setNextId t id | resetCounters t | count t which amount =>
      obtain ⟨table, ht⟩ := Store.has_table_iff.mp (hc.has_table.mpr hready)
      simp [act?, ht]
  have hcalling : action.isCalling = false := by
    cases action with
    | invoke request | step i => exact hready.elim
    | _ => rfl
  have hd := does_of_act? hact
  have hidle' : s'.Idle := by
    rintro j ⟨job, hj, hnone⟩
    obtain ⟨hj, -⟩ | ⟨_, rfl, -⟩ | ⟨_, _, rfl, -⟩ := hd.job_cases hj
    · exact hidle j ⟨job, hj, hnone⟩
    · cases hcalling
    · cases hcalling
  have hsize : s'.calls.size = s.calls.size := by
    cases hd with
    | invoke _ | step _ _ _ => cases hcalling
    | drop _ _ _ => simp
    | edit _ | swap _ | tend _ _ => rfl
  exact ⟨s', hact, hidle', hsize, (hc.act hs hact hcalling).2.forget hidle'⟩

end Service

end SessionBuffers
