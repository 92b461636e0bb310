import SessionBuffers.Proofs.Ownership

/-!
# How sessions end

A session is marked as ended by one call, and only this call goes on to close the registry. So when
a table is used through its sessions only, of every session's registry it holds that the calls about
to close it, and whether it is closed, add up to whether the session has ended (`Attended`); every
teardown is the first of its registry; and no history closes a registry twice. A closed registry is
empty, or about to be emptied.
-/

namespace SessionBuffers

namespace Teardown.Phase

/-- Whether a teardown that has marked its session has still to close the registry. -/
def isClosing : Phase → Bool
  | lockRegistry | lockTable | close => true
  | _ => false

/-- Whether the registry was open when the teardown closed it. -/
def first? : Phase → Option Bool
  | drain first => some first
  | find _ w | reportMissing _ w | lockContent _ _ w | erase _ _ w | dispose _ _ w
  | unlockContent _ _ w | unlockRegistry w | unlockTable w | countReleased w | countClosed w
  | report w => some w.first
  | _ => none

theorem first?_resume (w : Sweep) : (resume w).first? = some w.first := by
  unfold resume
  split <;> rfl

theorem isClosing_resume (w : Sweep) : (resume w).isClosing = false := by
  unfold resume
  split <;> rfl

end Teardown.Phase

namespace Job

/-- How many calls there are, in one job, that have still to close a registry. -/
def closing (r : RegistryRef) : Job → Int
  | tearingDown d phase => if d.registry = r ∧ phase.isClosing = true then 1 else 0
  | _ => 0

/-- The registry that the next step of a job closes. -/
def closes? : Job → Option RegistryRef
  | tearingDown d .close => some d.registry
  | _ => none

theorem closing_nonneg (r : RegistryRef) (job : Job) : 0 ≤ job.closing r := by
  unfold closing
  split
  · split <;> decide
  · decide

end Job

section Step

variable {supply : Supply} {who : CallRef} {s s' : Store} {job next : Job} {instr : Instr Job}
  {r : RegistryRef}

/-- But for the step that closes the registry, a teardown goes on with what it has found then. -/
theorem Teardown.first?_kept {d : Teardown} {phase : Phase} {step : Instr Phase}
    (hc : phase ≠ .close) (hp : d.progress phase = .next step) :
    step.Always fun last ↦ ∀ b, last.first? = some b → phase.first? = some b := by
  cases phase with
  | ended o => cases hp
  | close => exact absurd rfl hc
  | find key w =>
    cases hp
    intro index
    dsimp only
    split <;> exact fun _ ↦ id
  | drain first =>
    cases hp
    intro keys b hb
    rwa [Phase.first?_resume] at hb
  | reportMissing key w | unlockContent key b w =>
    cases hp
    intro b hb
    rwa [Phase.first?_resume] at hb
  | countReleased w =>
    cases hp
    dsimp only [Instr.Always]
    split <;> exact fun _ ↦ id
  | _ =>
    cases hp
    simp [Instr.Always, Phase.first?]

/-- But for the steps that mark a session and close a registry, a teardown has still to close its
registry exactly when it had before. -/
theorem Teardown.isClosing_kept {d : Teardown} {phase : Phase} {step : Instr Phase}
    (hf : ∀ c, phase ≠ .finish c) (hc : phase ≠ .close) (hp : d.progress phase = .next step) :
    step.Always fun last ↦ last.isClosing = phase.isClosing := by
  cases phase with
  | ended o => cases hp
  | finish c => exact absurd rfl (hf c)
  | close => exact absurd rfl hc
  | find key w =>
    cases hp
    intro index
    dsimp only
    split <;> rfl
  | drain first =>
    cases hp
    exact fun keys ↦ Phase.isClosing_resume _
  | reportMissing key w | unlockContent key b w =>
    cases hp
    exact Phase.isClosing_resume _
  | countReleased w =>
    cases hp
    dsimp only [Instr.Always]
    split <;> rfl
  | _ =>
    cases hp
    simp [Instr.Always, Phase.isClosing]

/-- A roster is closed after a step when it was before or when this is what the step does. -/
theorem Job.closed_iff (hn : job.progress = .next instr)
    (hr : instr.run supply who s = some (next, s')) :
    (s'.rosterOf r).closed = true ↔ (s.rosterOf r).closed = true ∨ job.closes? = some r := by
  rw [(Instr.changes_of_run hr).roster]
  by_cases hclose : ∃ q after, instr = .close q after
  · obtain ⟨q, after, rfl⟩ := hclose
    obtain ⟨d, rfl, rfl⟩ := Job.origin hn
    by_cases hq : d.registry = r
    · simp [Instr.onRoster, closes?, hq, Roster.close]
    · simp [Instr.onRoster, closes?, hq]
  · have hnone : job.closes? = none := by
      unfold closes?
      split
      · cases hn
        exact absurd ⟨_, _, rfl⟩ hclose
      · rfl
    have hsame : (instr.onRoster r (s.rosterOf r)).closed = (s.rosterOf r).closed := by
      cases instr with
      | close q after => exact absurd ⟨q, after, rfl⟩ hclose
      | add q key after | remove q key after | drain q after =>
        simp only [Instr.onRoster]
        split <;> rfl
      | _ => rfl
    simp [hsame, hnone]

/-- A key comes into a roster only when an allocation records it, or when the roster is edited. -/
theorem Job.contains_cases {k : Key} (hn : job.progress = .next instr)
    (hr : instr.run supply who s = some (next, s')) (hk : (s'.rosterOf r).contains k = true) :
    (s.rosterOf r).contains k = true ∨ job.isBusy r = true ∨ job.edits r = true := by
  rw [(Instr.changes_of_run hr).roster] at hk
  obtain hk | ⟨after, rfl⟩ := Instr.contains_onRoster hk
  · exact .inl hk
  · right
    obtain ⟨a, b, rfl, hq⟩ | ⟨c, rfl, hq, hact⟩ := Job.origin hn
    · exact .inl (by simp [isBusy, worksOn, outcome?, hn, hq])
    · exact .inr (by simp [edits, hq, hact, RosterAction.changes])

/-! ### One call on its way to close a registry -/

/-- What a step of a job does about closing a registry: nothing; or it marks the session as ended,
and goes on to close the registry; or it closes it. -/
inductive Job.Advances (r : RegistryRef) (s : Store) (job next : Job) : Prop
  | stays (h : next.closing r = job.closing r) (hc : job.closes? ≠ some r)
    (hf : ∀ d c, job = .tearingDown d (.finish c) → d.registry = r →
      ∃ x, s.sessions[c]? = some x ∧ x.ended = true)
  | begins {d : Teardown} {c : SessionRef} {x : Session} (hj : job = .tearingDown d (.finish c))
    (hr : d.registry = r) (hx : s.sessions[c]? = some x) (he : x.ended = false)
    (h : next.closing r = 1)
  | closes {d : Teardown} (hj : job = .tearingDown d .close) (hr : d.registry = r)
    (h : next = .tearingDown d (.drain (!(s.rosterOf r).closed)))

theorem Job.advances (hn : job.progress = .next instr)
    (hr : instr.run supply who s = some (next, s')) (r : RegistryRef) :
    Job.Advances r s job next := by
  cases job with
  | tearingDown d phase =>
    obtain ⟨step, hp, rfl⟩ := Progress.map_eq_next.mp hn
    obtain ⟨last, hrun, rfl⟩ := Instr.run_map_eq_some.mp hr
    by_cases hreg : d.registry = r
    · subst hreg
      cases phase with
      | finish c =>
        cases hp
        obtain ⟨x, hx, ⟨he, rfl, -⟩ | ⟨he, rfl, -⟩⟩ := Instr.run_finish.mp hrun
        · refine .stays (by simp [closing, Teardown.Phase.isClosing]) (by simp [closes?]) ?_
          rintro _ _ ⟨⟩ -
          exact ⟨x, hx, he⟩
        · exact .begins rfl rfl hx he (by simp [closing, Teardown.Phase.isClosing])
      | close =>
        cases hp
        obtain ⟨-, rfl, -⟩ := Instr.run_close.mp hrun
        exact .closes rfl rfl rfl
      | _ =>
        have hsame := Instr.Always.of_run (Teardown.isClosing_kept (by simp) (by simp) hp) hrun
        exact .stays (by simp [closing, hsame]) (by simp [closes?]) (by simp)
    · refine .stays (by simp [closing, hreg]) ?_ ?_
      · cases phase <;> simp [closes?, hreg]
      · rintro _ _ ⟨⟩ he
        exact absurd he hreg
  | _ =>
    obtain ⟨step, -, rfl⟩ := Progress.map_eq_next.mp hn
    obtain ⟨last, -, rfl⟩ := Instr.run_map_eq_some.mp hr
    exact .stays rfl (by simp [closes?]) (by simp)

end Step

namespace Service

variable {limits : List Limits} {supply : Supply} {s s' : Service} {action : Action} {h : History}
  {t u : TableRef} {r : RegistryRef} {i : CallRef}

/-! ### Which sessions have ended -/

/-- Whether the session of a registry has ended. -/
def isOver (s : Service) (t : TableRef) (r : RegistryRef) : Bool :=
  s.store.sessions.any fun x ↦ x.table == t && x.registry == r && x.ended

theorem isOver_iff : s.isOver t r = true ↔
    ∃ (c : SessionRef) (x : Session), s.store.sessions[c]? = some x ∧ x.table = t ∧
      x.registry = r ∧ x.ended = true := by
  rw [isOver, Array.any_eq_true']
  simp only [Bool.and_eq_true, beq_iff_eq, and_assoc]
  constructor
  · rintro ⟨x, hx, h⟩
    obtain ⟨c, hc⟩ := Array.mem_iff_getElem?.mp hx
    exact ⟨c, x, hc, h⟩
  · rintro ⟨c, x, hc, h⟩
    exact ⟨x, Array.mem_of_getElem? hc, h⟩

/-- The session of a registry has ended exactly when it is marked. -/
theorem Apart.isOver_eq (ha : s.Apart) {c : SessionRef} {x : Session}
    (hc : s.store.sessions[c]? = some x) : s.isOver x.table x.registry = x.ended := by
  rw [Bool.eq_iff_iff, isOver_iff]
  constructor
  · rintro ⟨d, y, hy, -, hr, he⟩
    obtain rfl := ha.sessions hc hy hr.symm
    cases hc.symm.trans hy
    exact he
  · exact fun he ↦ ⟨c, x, hc, rfl, rfl, he⟩

/-- A session that has ended had ended before, or it is this that the action does. -/
theorem Does.ended_cases {c : SessionRef} {x : Session} (hd : s.Does supply action s')
    (hc : s'.store.sessions[c]? = some x) (he : x.ended = true) :
    ∃ y, s.store.sessions[c]? = some y ∧ y.table = x.table ∧ y.registry = x.registry ∧
      (y.ended = true ∨
        ∃ i d, action = .step i ∧ s.job? i = some (.tearingDown d (.finish c))) := by
  cases hd with
  | invoke hj => exact ⟨x, hc, rfl, rfl, .inl he⟩
  | drop hcall hg hb => exact ⟨x, hc, rfl, rfl, .inl he⟩
  | edit hw | swap hw => exact ⟨x, hc, rfl, rfl, .inl he⟩
  | tend hk ha =>
    rw [ha.sessions] at hc
    exact ⟨x, hc, rfl, rfl, .inl he⟩
  | @step i call instr next store hi hp hr =>
    rw [Instr.sessions_of_run hr] at hc
    cases instr with
    | «open» q r after =>
      simp only [Instr.onSessions, Array.getElem?_push] at hc
      split at hc
      · cases hc
        cases he
      · exact ⟨x, hc, rfl, rfl, .inl he⟩
    | finish d first again =>
      simp only [Instr.onSessions, Array.getElem?_modify] at hc
      split at hc
      · next hdc =>
        subst hdc
        obtain ⟨y, hy, rfl⟩ := Option.map_eq_some_iff.mp hc
        obtain ⟨down, hjob⟩ := Job.origin hp
        exact ⟨y, hy, rfl, rfl, .inr ⟨i, down, rfl, job?_eq_some.mpr ⟨call, hi, hjob⟩⟩⟩
      · exact ⟨x, hc, rfl, rfl, .inl he⟩
    | _ => exact ⟨x, hc, rfl, rfl, .inl he⟩

/-- Whether an action is the step of a call that marks the session of a registry as ended. -/
def Ends (s : Service) (t : TableRef) (r : RegistryRef) (action : Action) : Prop :=
  ∃ i d c, action = .step i ∧ s.job? i = some (.tearingDown d (.finish c)) ∧ d.table = t ∧
    d.registry = r

theorem Does.isOver_iff (hd : s.Does supply action s') (ha : s.Apart) :
    s'.isOver t r = true ↔ s.isOver t r = true ∨ s.Ends t r action := by
  constructor
  · intro hover
    obtain ⟨c, x, hc, rfl, rfl, he⟩ := Service.isOver_iff.mp hover
    obtain ⟨y, hy, ht, hr, he | ⟨i, d, hstep, hj⟩⟩ := hd.ended_cases hc he
    · exact .inl (Service.isOver_iff.mpr ⟨c, y, hy, ht, hr, he⟩)
    · obtain ⟨z, hz, hzt, hzr⟩ := ha.ending hj
      cases hy.symm.trans hz
      exact .inr ⟨i, d, c, hstep, hj, hzt.symm.trans ht, hzr.symm.trans hr⟩
  · rintro (hover | ⟨i, d, c, rfl, hj, rfl, rfl⟩)
    · obtain ⟨c, x, hc, ht, hr, he⟩ := Service.isOver_iff.mp hover
      obtain ⟨y, hy, hyt, hyr, hended⟩ := hd.session_kept hc
      exact Service.isOver_iff.mpr ⟨c, y, hy, hyt.trans ht, hyr.trans hr, hended he⟩
    · obtain ⟨x, hx, ht, hr⟩ := ha.ending hj
      obtain ⟨instr, next, hp, hrun, -⟩ := hd.job_step hj
      cases hp
      refine Service.isOver_iff.mpr ⟨c, { x with ended := true }, ?_, ht, hr, rfl⟩
      rw [Instr.sessions_of_run hrun]
      simp [Instr.map, Instr.onSessions, Array.getElem?_modify, hx]

/-! ### Registries kept for sessions -/

/-- Whether a registry is that of a session of a table, or can still become one's. -/
def Reserved (t : TableRef) (s : Service) (r : RegistryRef) : Prop :=
  s.owns t r = true ∨ ¬ s.store.Has (.registry r)

theorem Reserved.of_does (hr : s'.Reserved t r) (hs : Reachable limits s)
    (hd : s.Does supply action s') : s.Reserved t r := by
  obtain ho | hnew := hr
  · exact hd.owns_cases hs ho
  · exact .inr fun hhas ↦ hnew (hd.has_kept hhas)

theorem Reserved.owns (hr : s.Reserved t r) (hhas : s.store.Has (.registry r)) :
    s.owns t r = true :=
  hr.resolve_right fun hnew ↦ hnew hhas

/-- What works with a registry kept for sessions works on their table. -/
theorem Housed.table_of_reserved (hh : s.Housed t) (hs : s.Scoped) (hr : s.Reserved t r) {job : Job}
    (hj : s.job? i = some job) (hp : job.place? = some (u, r)) : u = t :=
  (hh.placed hj hp).2 (hr.owns (hs.has_place hj hp))

/-! ### Whoever marks a session closes its registry -/

/-- What holds of the sessions of a table that has been used through them only. -/
structure Attended (t : TableRef) (s : Service) : Prop where
  begun : ∀ r, s.isOver t r = true → s.someJob (Job.tearsDown r) = true
  /-- A session has ended when a call is about to close its registry, or when it is closed. -/
  closing : ∀ r, s.Reserved t r →
    s.total (Job.closing r) + (s.store.rosterOf r).closed.toInt = (s.isOver t r).toInt
  first : ∀ {i : CallRef} {d : Teardown} {phase : Teardown.Phase} {b : Bool},
    s.job? i = some (.tearingDown d phase) → d.table = t → phase.first? = some b → b = true
  emptied : ∀ r, s.Reserved t r → (s.store.rosterOf r).closed = true →
    (∀ k, (s.store.rosterOf r).contains k = false) ∨
      ∃ i d b, s.job? i = some (.tearingDown d (.drain b)) ∧ d.registry = r

theorem attended_withTables (limits : List Limits) (t : TableRef) :
    (withTables limits).Attended t := by
  have hover (r : RegistryRef) : (withTables limits).isOver t r = false := by
    simp [isOver, withTables, Store.withTables]
  have hroster (r : RegistryRef) : (withTables limits).store.rosterOf r = {} := rfl
  refine ⟨fun r h ↦ ?_, fun r _ ↦ ?_, fun {i _ _ _} hj ↦ ?_, fun r _ h ↦ ?_⟩
  · rw [hover] at h
    cases h
  · rw [hover, hroster]
    simp [total, withTables]
  · simp [job?, withTables] at hj
  · rw [hroster] at h
    cases h

theorem total_closing_nonneg (s : Service) (r : RegistryRef) : 0 ≤ s.total (Job.closing r) :=
  total_nonneg (Job.closing_nonneg r)

namespace Attended

variable {job next : Job} {instr : Instr Job}

/-- While a call is about to close a registry, it is open. -/
theorem open_of_close (hat : s.Attended t) {d : Teardown} (hd : s.Does supply (.step i) s')
    (hres : s.Reserved t d.registry) (hj : s.job? i = some (.tearingDown d .close)) :
    (s.store.rosterOf d.registry).closed = false ∧ s.isOver t d.registry = true := by
  obtain ⟨instr, next, hp, hr, hj'⟩ := hd.job_step hj
  cases hp
  obtain ⟨-, rfl, -⟩ := Instr.run_close.mp hr
  have hsum := hd.total_step hj hj' (Job.closing d.registry)
  have hnonneg := s'.total_closing_nonneg d.registry
  have hequal := hat.closing d.registry hres
  have hone : Job.closing d.registry (.tearingDown d .close) = 1 := by
    simp [Job.closing, Teardown.Phase.isClosing]
  have hnone (b : Bool) : Job.closing d.registry (.tearingDown d (.drain b)) = 0 := by
    simp [Job.closing, Teardown.Phase.isClosing]
  rw [Function.comp_apply, hone, hnone] at hsum
  cases hc : (s.store.rosterOf d.registry).closed <;>
    cases ho : s.isOver t d.registry <;>
    simp only [hc, ho, Bool.toInt_false, Bool.toInt_true] at hequal <;> first
      | exact ⟨rfl, rfl⟩
      | omega

/-- A step of a call keeps the account of who closes a registry. -/
private theorem closing_step (hat : s.Attended t) (ha : s.Apart) (hh : s.Housed t)
    (hscoped : s.Scoped) (hd : s.Does supply (.step i) s') (hres : s.Reserved t r) :
    s'.total (Job.closing r) + (s'.store.rosterOf r).closed.toInt = (s'.isOver t r).toInt := by
  obtain ⟨call, -, -, hc, -⟩ := hd.calls_step
  have hj : s.job? i = some call.job := job?_eq_some.mpr ⟨call, hc, rfl⟩
  obtain ⟨instr, next, hn, hr, hj'⟩ := hd.job_step hj
  have hequal := hat.closing r hres
  have hsum := hd.total_step hj hj' (Job.closing r)
  have hclosed := Job.closed_iff (r := r) hn hr
  have hover := hd.isOver_iff (t := t) (r := r) ha
  have hends : s.Ends t r (.step i) →
      ∃ d c, call.job = .tearingDown d (.finish c) ∧ d.table = t ∧ d.registry = r := by
    rintro ⟨_, d, c, ⟨⟩, hfinish, ht, hreg⟩
    exact ⟨d, c, Option.some.inj (hj.symm.trans hfinish), ht, hreg⟩
  cases Job.advances hn hr r with
  | stays hsame hcloses hfinished =>
    have hover' : s'.isOver t r = s.isOver t r := by
      rw [Bool.eq_iff_iff, hover, or_iff_left_iff_imp]
      intro hend
      obtain ⟨d, c, hjob, rfl, rfl⟩ := hends hend
      obtain ⟨x, hx, he⟩ := hfinished d c hjob rfl
      obtain ⟨y, hy, ht, hreg⟩ := ha.ending (hj.trans (congrArg some hjob))
      cases hx.symm.trans hy
      rw [← ht, ← hreg, ha.isOver_eq hx, he]
    have hclosed' : (s'.store.rosterOf r).closed = (s.store.rosterOf r).closed := by
      rw [Bool.eq_iff_iff, hclosed, or_iff_left hcloses]
    rw [hsum, hsame, hclosed', hover', ← hequal]
    omega
  | @begins d c x hjob hreg hx he hone =>
    subst hreg
    have hjob' : s.job? i = some (.tearingDown d (.finish c)) := hj.trans (congrArg some hjob)
    obtain rfl := hh.table_of_reserved hscoped hres hjob' rfl
    obtain ⟨y, hy, ht, hreg⟩ := ha.ending hjob'
    cases hx.symm.trans hy
    have hbefore : s.isOver d.table d.registry = false := by
      rw [← ht, ← hreg, ha.isOver_eq hx, he]
    have hafter : s'.isOver d.table d.registry = true :=
      hover.mpr (.inr ⟨i, d, c, rfl, hjob', rfl, rfl⟩)
    have hclosed' :
        (s'.store.rosterOf d.registry).closed = (s.store.rosterOf d.registry).closed := by
      rw [Bool.eq_iff_iff, hclosed, or_iff_left (by simp [hjob, Job.closes?])]
    have hzero : call.job.closing d.registry = 0 := by
      simp [hjob, Job.closing, Teardown.Phase.isClosing]
    rw [hbefore] at hequal
    rw [hsum, hone, hzero, hclosed', hafter]
    simp only [Bool.toInt_false, Bool.toInt_true] at hequal ⊢
    omega
  | @closes d hjob hreg hnext =>
    subst hreg
    have hjob' : s.job? i = some (.tearingDown d .close) := hj.trans (congrArg some hjob)
    obtain ⟨hopen, hended⟩ := hat.open_of_close hd hres hjob'
    have hclosed' : (s'.store.rosterOf d.registry).closed = true :=
      hclosed.mpr (.inr (by simp [hjob, Job.closes?]))
    have hafter : s'.isOver t d.registry = true := hover.mpr (.inl hended)
    rw [hopen, hended] at hequal
    rw [hsum, hjob, hnext, hclosed', hafter]
    simp only [Job.closing, Teardown.Phase.isClosing, Bool.toInt_false, Bool.toInt_true, and_true,
      if_true, Bool.false_eq_true, and_false, if_false] at hequal ⊢
    omega

/-- What an action leaves of the account of who closes a registry. -/
private theorem closing_of_does (hat : s.Attended t) (ha : s.Apart) (hh : s.Housed t)
    (hscoped : s.Scoped) (hd : s.Does supply action s')
    (hthrough : s.throughSessions t action = true) (hres : s.Reserved t r) :
    s'.total (Job.closing r) + (s'.store.rosterOf r).closed.toInt = (s'.isOver t r).toInt := by
  by_cases hstep : ∃ i, action = .step i
  · obtain ⟨i, rfl⟩ := hstep
    exact hat.closing_step ha hh hscoped hd hres
  · have hne (i : CallRef) : action ≠ .step i := fun he ↦ hstep ⟨i, he⟩
    have hover : s'.isOver t r = s.isOver t r := by
      rw [Bool.eq_iff_iff, hd.isOver_iff ha, or_iff_left]
      rintro ⟨i, _, _, he, -⟩
      exact hne i he
    have hzero (request : Request) (he : action = .invoke request) (job : Job)
        (hr : Job.ofRequest? s.store request = some job) : job.closing r = 0 := by
      subst he
      cases Job.ofRequest?_eq_some.mp hr with
      | @teardown u q ht hq =>
        -- A raw teardown is never asked for with a registry that is kept for sessions.
        have hne : q ≠ r := by
          rintro rfl
          simp [throughSessions, hres.owns hq] at hthrough
        simp [Job.closing, hne]
      | endSession hc hq => simp [Job.closing, Teardown.Phase.isClosing]
      | _ => rfl
    rw [hd.total_rest hne hzero, (hd.views_kept hne).2, hover]
    exact hat.closing r hres

/-- Every teardown is the first of its registry. -/
private theorem first_of_does (hat : s.Attended t) (hh : s.Housed t)
    (hd : s.Does supply action s') {d : Teardown} {phase : Teardown.Phase} {b : Bool}
    (hj' : s'.job? i = some (.tearingDown d phase)) (ht : d.table = t)
    (hb : phase.first? = some b) : b = true := by
  obtain ⟨hold, -⟩ | ⟨request, -, hr, -⟩ | ⟨before, instr, rfl, hj, hn, hr⟩ := hd.job_cases hj'
  · exact hat.first hold ht hb
  · cases Job.ofRequest?_eq_some.mp hr <;> cases hb
  · cases before <;> obtain ⟨step, hp, rfl⟩ := Progress.map_eq_next.mp hn <;>
      obtain ⟨last, hrun, he⟩ := Instr.run_map_eq_some.mp hr <;> cases he
    next before =>
    by_cases hclose : before = .close
    · subst hclose
      cases hp
      obtain ⟨-, rfl, -⟩ := Instr.run_close.mp hrun
      have hsession := (hh.placed hj rfl).1 ht
      have hres : s.Reserved t d.registry := .inl (by simp [owns, hsession])
      obtain ⟨hopen, -⟩ := hat.open_of_close hd hres hj
      rw [← Option.some.inj hb, hopen]
      rfl
    · exact hat.first hj ht (Instr.Always.of_run (Teardown.first?_kept hclose hp) hrun b hb)

/-- No key comes into the roster of a session that has ended. -/
private theorem contains_of_closed (hat : s.Attended t) (hh : s.Housed t) (hscoped : s.Scoped)
    (hd : s.Does supply action s') (hres : s.Reserved t r)
    (hclosed : (s.store.rosterOf r).closed = true) {k : Key}
    (hk : (s'.store.rosterOf r).contains k = true) : (s.store.rosterOf r).contains k = true := by
  by_cases hstep : ∃ i, action = .step i
  · obtain ⟨i, rfl⟩ := hstep
    obtain ⟨call, instr, next, hc, hn, hr, -⟩ := hd.calls_step
    have hj : s.job? i = some call.job := job?_eq_some.mpr ⟨call, hc, rfl⟩
    obtain hk | hbusy | hedits := Job.contains_cases hn hr hk
    · exact hk
    · -- The session has ended, so some call is for tearing it down.
      have hover : s.isOver t r = true := by
        have hequal := hat.closing r hres
        have hnonneg := s.total_closing_nonneg r
        rw [hclosed] at hequal
        cases ho : s.isOver t r with
        | true => rfl
        | false =>
          simp only [ho, Bool.toInt_false, Bool.toInt_true] at hequal
          omega
      obtain ⟨j, other, hother, hdown⟩ := someJob_iff.mp (hat.begun r hover)
      have hnot := hh.parted hj hother hbusy hdown
      rw [hres.owns (hscoped.has_torn hother hdown)] at hnot
      cases hnot
    · have hnot := hh.spared hj hedits
      rw [hres.owns (hscoped.has_edited hj hedits)] at hnot
      cases hnot
  · rwa [(hd.views_kept fun i he ↦ hstep ⟨i, he⟩).2] at hk

/-- A closed registry is empty, or about to be emptied. -/
private theorem emptied_of_does (hat : s.Attended t) (hh : s.Housed t) (hscoped : s.Scoped)
    (hd : s.Does supply action s') (hres : s.Reserved t r)
    (hclosed' : (s'.store.rosterOf r).closed = true) :
    (∀ k, (s'.store.rosterOf r).contains k = false) ∨
      ∃ i d b, s'.job? i = some (.tearingDown d (.drain b)) ∧ d.registry = r := by
  by_cases hclosed : (s.store.rosterOf r).closed = true
  · obtain hempty | ⟨i, d, b, hj, rfl⟩ := hat.emptied r hres hclosed
    · refine .inl fun k ↦ Bool.eq_false_iff.mpr fun hk ↦ ?_
      have hk := hat.contains_of_closed hh hscoped hd hres hclosed hk
      rw [hempty k] at hk
      cases hk
    · by_cases hstep : action = .step i
      · subst hstep
        obtain ⟨instr, next, hp, hr, -⟩ := hd.job_step hj
        cases hp
        refine .inl fun k ↦ Bool.eq_false_iff.mpr ?_
        rw [(Instr.changes_of_run hr).roster]
        simpa [Instr.map, Instr.onRoster] using Roster.not_contains_drained _ k
      · exact .inr ⟨i, d, b, hd.job_kept hj hstep, rfl⟩
  · obtain ⟨i, job, instr, next, rfl, hj, hn, hr, hj'⟩ | hne := hd.step_or
    · obtain hclosed' | hcloses := (Job.closed_iff hn hr).mp hclosed'
      · exact absurd hclosed' hclosed
      · right
        unfold Job.closes? at hcloses
        split at hcloses
        · next d =>
          cases hcloses
          cases hn
          obtain ⟨-, rfl, -⟩ := Instr.run_close.mp hr
          exact ⟨i, d, _, hj', rfl⟩
        · cases hcloses
    · rw [(hd.views_kept hne).2] at hclosed'
      exact absurd hclosed' hclosed

/-- Every action that uses a table through its sessions only keeps this of its sessions. -/
theorem of_does (hat : s.Attended t) (hh : s.Housed t) (hs : Reachable limits s)
    (hd : s.Does supply action s') (hthrough : s.throughSessions t action = true) :
    s'.Attended t where
  begun := by
    intro r hover
    have hsome : s.someJob (Job.tearsDown r) = true := by
      obtain hover | ⟨i, d, c, -, hj, -, rfl⟩ := (hd.isOver_iff hs.apart).mp hover
      · exact hat.begun r hover
      · exact someJob_iff.mpr ⟨i, _, hj, by simp [Job.tearsDown]⟩
    obtain ⟨i, job, hj, hdown⟩ := someJob_iff.mp hsome
    obtain ⟨next, hnext, hsame⟩ := hd.sameTask hj
    exact someJob_iff.mpr ⟨i, next, hnext, by rw [hsame.same.2.1, hdown]⟩
  closing r hres :=
    hat.closing_of_does hs.apart hh hs.scoped hd hthrough (hres.of_does hs hd)
  first := hat.first_of_does hh hd
  emptied r hres := hat.emptied_of_does hh hs.scoped hd (hres.of_does hs hd)

end Attended

/-- A history that uses a table through its sessions only leaves calls and sessions as they have to
be. -/
theorem attended_of_run (hs : Reachable limits s) (hh : s.Housed t) (hat : s.Attended t)
    (hr : s.run? h = some s') (honly : s.onlyThroughSessions t h = true) :
    s'.Housed t ∧ s'.Attended t := by
  induction h generalizing s with
  | nil =>
    cases hr
    exact ⟨hh, hat⟩
  | cons e h ih =>
    obtain ⟨ha, v, hv, hr⟩ := run?_cons_eq_some.mp hr
    obtain ⟨hthrough, honly⟩ := (onlyThroughSessions_cons hv).mp honly
    have hd := does_of_act? hv
    exact ih (hs.act ha hv) (hh.of_does hs hd hthrough) (hat.of_does hh hs hd hthrough) hr honly

/-! ### No registry is closed twice -/

/-- The registry that an action closes. -/
def closes? (s : Service) : Action → Option RegistryRef
  | .step i => (s.job? i).bind Job.closes?
  | _ => none

/-- The registries that teardowns close in a history, in order. -/
def closings (s : Service) (h : History) : List RegistryRef := s.collected closes? h

theorem closings_cons {v : Service} (hact : s.act? supply action = some v) :
    s.closings ((supply, action) :: h) = (s.closes? action).toList ++ v.closings h :=
  collected_cons hact

theorem Reserved.of_run (hres : s'.Reserved t r) (hs : Reachable limits s)
    (hr : s.run? h = some s') : s.Reserved t r := by
  induction h generalizing s with
  | nil =>
    cases hr
    exact hres
  | cons e h ih =>
    obtain ⟨ha, v, hv, hr⟩ := run?_cons_eq_some.mp hr
    exact (ih (hs.act ha hv) hr).of_does hs (does_of_act? hv)

/-- An action closes the registry of a session just when it was open. -/
private theorem Attended.closed_eq (hat : s.Attended t) (hd : s.Does supply action s')
    (hres : s.Reserved t r) :
    (s.closes? action).toList.count r + (s.store.rosterOf r).closed.toNat =
      (s'.store.rosterOf r).closed.toNat := by
  by_cases hstep : ∃ i, action = .step i
  · obtain ⟨i, rfl⟩ := hstep
    obtain ⟨call, instr, next, hc, hn, hr, -⟩ := hd.calls_step
    have hj : s.job? i = some call.job := job?_eq_some.mpr ⟨call, hc, rfl⟩
    have hcloses : s.closes? (.step i) = call.job.closes? := by simp [closes?, hj]
    have hiff := Job.closed_iff (r := r) hn hr
    rw [hcloses]
    by_cases hown : call.job.closes? = some r
    · have hafter : (s'.store.rosterOf r).closed = true := hiff.mpr (.inr hown)
      unfold Job.closes? at hown ⊢
      split at hown
      · next d hjob =>
        cases hown
        rw [hjob] at hj
        rw [(hat.open_of_close hd hres hj).1, hafter]
        simp
      · cases hown
    · have hsame : (s'.store.rosterOf r).closed = (s.store.rosterOf r).closed := by
        rw [Bool.eq_iff_iff, hiff, or_iff_left hown]
      have hzero : call.job.closes?.toList.count r = 0 := by
        rw [List.count_eq_zero]
        exact fun hmem ↦ hown (Option.mem_toList.mp hmem)
      rw [hsame, hzero, Nat.zero_add]
  · have hne (i : CallRef) : action ≠ .step i := fun he ↦ hstep ⟨i, he⟩
    have hnone : s.closes? action = none := by
      cases action with
      | step i => exact absurd rfl (hne i)
      | _ => rfl
    rw [hnone, (hd.views_kept hne).2]
    simp

/-- How often the registry of a session is closed in a history. -/
theorem Attended.count_closings (hat : s.Attended t) (hh : s.Housed t) (hs : Reachable limits s)
    (hr : s.run? h = some s') (honly : s.onlyThroughSessions t h = true) (hres : s'.Reserved t r) :
    (s.closings h).count r + (s.store.rosterOf r).closed.toNat =
      (s'.store.rosterOf r).closed.toNat := by
  induction h generalizing s with
  | nil =>
    cases hr
    simp [closings]
  | cons e h ih =>
    have hbefore := hres.of_run hs hr
    obtain ⟨ha, v, hv, hr⟩ := run?_cons_eq_some.mp hr
    obtain ⟨hthrough, honly⟩ := (onlyThroughSessions_cons hv).mp honly
    have hd := does_of_act? hv
    have hhead := hat.closed_eq hd hbefore
    have hrest := ih (hat.of_does hh hs hd hthrough) (hh.of_does hs hd hthrough) (hs.act ha hv) hr
      honly
    rw [closings_cons hv, List.count_append]
    omega

end Service

end SessionBuffers
