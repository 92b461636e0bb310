import SessionBuffers.Proofs.Census

/-!
# How often the end of a session is counted

A teardown counts the end of a session when it was the first to close the registry, and it does so
after it has given back its locks. Whoever finds the registry open closes it at the same step, and
nothing opens it again; so whatever tables a registry is torn down through, and however often it is
used again in between, the end of its session is counted once at most (`closures_le_one`).
-/

namespace SessionBuffers

namespace Service

variable {α : Type} {limits : List Limits} {supply : Supply} {s s' u : Service} {action : Action}
  {h k : History} {i : CallRef} {t : TableRef} {r : RegistryRef} {job : Job} {x : α}
  {f : CallRef → Job → Option α}

/-! ### What is gathered from a history -/

/-- What is seen of an action, when it is a step of a call, from the job of the call. -/
def ofStep (f : CallRef → Job → Option α) (s : Service) : Action → Option α
  | .step i => (s.job? i).bind (f i)
  | _ => none

theorem ofStep_eq_some : s.ofStep f action = some x ↔
    ∃ i job, action = .step i ∧ s.job? i = some job ∧ f i job = some x := by
  cases action with
  | step i => simp [ofStep, Option.bind_eq_some_iff]
  | _ => simp [ofStep]

theorem ofStep_step (hj : s.job? i = some job) : s.ofStep f (.step i) = f i job := by
  rw [ofStep, hj, Option.bind_some]

theorem ofStep_of_ne (hne : ∀ i, action ≠ .step i) : s.ofStep f action = none := by
  cases action with
  | step i => exact absurd rfl (hne i)
  | _ => rfl

/-- What is seen of the steps of a history, in order. -/
def gathered (f : CallRef → Job → Option α) (s : Service) (h : History) : List α :=
  s.collected (ofStep f) h

theorem gathered_cons (hact : s.act? supply action = some u) :
    s.gathered f ((supply, action) :: h) = (s.ofStep f action).toList ++ u.gathered f h :=
  collected_cons hact

theorem gathered_append (hr : s.run? h = some u) :
    s.gathered f (h ++ k) = s.gathered f h ++ u.gathered f k := collected_append hr

/-- What is gathered has been seen of some step, after what is gathered before it. -/
theorem exists_of_gathered_eq {l r : List α} (hr : s.run? h = some s')
    (hx : s.gathered f h = l ++ x :: r) :
    ∃ before supply i after u job v, h = before ++ (supply, .step i) :: after ∧
      s.run? before = some u ∧ s.gathered f before = l ∧ u.job? i = some job ∧
      f i job = some x ∧ u.allows (.step i) = true ∧ u.act? supply (.step i) = some v ∧
      v.run? after = some s' := by
  induction h generalizing s l with
  | nil => simp [gathered] at hx
  | cons e h ih =>
    obtain ⟨supply, action⟩ := e
    obtain ⟨ha, v, hv, hafter⟩ := run?_cons_eq_some.mp hr
    rw [gathered_cons hv] at hx
    cases hseen : s.ofStep f action with
    | none =>
      rw [hseen, Option.toList_none, List.nil_append] at hx
      obtain ⟨before, supply', i, after, u, job, w, rfl, hb, hleft, hrest⟩ := ih hafter hx
      refine ⟨(supply, action) :: before, supply', i, after, u, job, w, rfl,
        run?_cons_eq_some.mpr ⟨ha, v, hv, hb⟩, ?_, hrest⟩
      rw [gathered_cons hv, hseen, hleft]
      rfl
    | some y =>
      rw [hseen, Option.toList_some, List.singleton_append] at hx
      cases l with
      | nil =>
        cases hx
        obtain ⟨i, job, rfl, hj, hf⟩ := ofStep_eq_some.mp hseen
        exact ⟨[], supply, i, h, s, job, v, rfl, rfl, rfl, hj, hf, ha, hv, hafter⟩
      | cons z l =>
        obtain ⟨rfl, htail⟩ := List.cons.inj hx
        obtain ⟨before, supply', i, after, u, job, w, rfl, hb, hleft, hrest⟩ := ih hafter htail
        refine ⟨(supply, action) :: before, supply', i, after, u, job, w, rfl,
          run?_cons_eq_some.mpr ⟨ha, v, hv, hb⟩, ?_, hrest⟩
        rw [gathered_cons hv, hseen, hleft]
        rfl

/-- What every action adds to a measure, a history adds to it. -/
theorem measure_of_run {p : α → Bool} {m : Service → Int}
    (hstep : ∀ {supply action u v}, u.act? supply action = some v →
      m v = m u + (u.ofStep f action).toList.countP p)
    (hr : s.run? h = some s') : m s' = m s + (s.gathered f h).countP p := by
  induction h generalizing s with
  | nil =>
    cases hr
    simp [gathered]
  | cons e h ih =>
    obtain ⟨-, v, hv, hr⟩ := run?_cons_eq_some.mp hr
    rw [gathered_cons hv, ih hr, hstep hv, List.countP_append]
    omega

end Service

/-! ### Closings that are counted, and those still to be counted -/

/-- Whether a teardown that stands here has closed its registry first, and has still to count
this. -/
def Teardown.Phase.owesClosing : Phase → Bool
  | drain first => first
  | find _ w | reportMissing _ w | lockContent _ _ w | erase _ _ w | dispose _ _ w
  | unlockContent _ _ w | unlockRegistry w | unlockTable w | countReleased w => w.first
  | countClosed _ => true
  | _ => false

namespace Job

/-- How many closings of a registry a job has still to count. -/
def owedClosing (r : RegistryRef) : Job → Int
  | tearingDown d phase => if d.registry = r ∧ phase.owesClosing = true then 1 else 0
  | _ => 0

/-- The registry whose closing a job counts at its next step, and the table it counts it at. -/
def closure? : Job → Option (TableRef × RegistryRef)
  | tearingDown d (.countClosed _) => some (d.table, d.registry)
  | _ => none

theorem owedClosing_nonneg (r : RegistryRef) (job : Job) : 0 ≤ job.owedClosing r := by
  unfold owedClosing
  split
  · split <;> decide
  · decide

theorem owedClosing_of_outcome? {job : Job} {o : Outcome} (h : job.outcome? = some o)
    (r : RegistryRef) : job.owedClosing r = 0 := by
  rw [outcome?_eq_some] at h
  cases job with
  | tearingDown d phase =>
    cases phase <;> cases h
    simp [owedClosing, Teardown.Phase.owesClosing]
  | _ => rfl

theorem owedClosing_of_ofRequest? {s : Store} {request : Request} {job : Job}
    (h : ofRequest? s request = some job) (r : RegistryRef) : job.owedClosing r = 0 := by
  cases ofRequest?_eq_some.mp h <;> simp [owedClosing, Teardown.Phase.owesClosing]

end Job

/-- But for the steps that close a registry and count this, a teardown owes what it owed. -/
theorem Teardown.owesClosing_kept {d : Teardown} {phase : Phase} {step : Instr Phase}
    (hclose : phase ≠ .close) (hcount : ∀ w, phase ≠ .countClosed w)
    (hp : d.progress phase = .next step) :
    step.Always fun last ↦ last.owesClosing = phase.owesClosing := by
  have hresume (w : Sweep) : (Phase.resume w).owesClosing = w.first := by
    unfold Phase.resume
    split <;> rfl
  cases phase with
  | ended o => cases hp
  | close => exact absurd rfl hclose
  | countClosed w => exact absurd rfl (hcount w)
  | find key w =>
    cases hp
    intro index
    dsimp only
    split <;> rfl
  | drain first =>
    cases hp
    exact fun keys ↦ hresume _
  | reportMissing key w | unlockContent key b w =>
    cases hp
    exact hresume _
  | countReleased w =>
    cases hp
    cases hfirst : w.first <;> simp [Instr.Always, Phase.owesClosing, hfirst]
  | _ =>
    cases hp
    simp [Instr.Always, Phase.owesClosing]

section Step

variable {supply : Supply} {i : CallRef} {s s' : Store} {job next : Job} {instr : Instr Job}

/-- A step that closes a registry first owes a count, and a step that counts it owes one less. -/
theorem Job.owedClosing_step (hn : job.progress = .next instr)
    (hr : instr.run supply i s = some (next, s')) (r : RegistryRef) :
    next.owedClosing r - (s'.rosterOf r).closed.toInt =
      job.owedClosing r - (s.rosterOf r).closed.toInt -
        if job.closure?.map Prod.snd = some r then 1 else 0 := by
  have hiff := closed_iff (r := r) hn hr
  have hsame (hnot : job.closes? ≠ some r) :
      (s'.rosterOf r).closed = (s.rosterOf r).closed := by
    rw [Bool.eq_iff_iff, hiff, or_iff_left hnot]
  cases job with
  | tearingDown d phase =>
    obtain ⟨step, hp, rfl⟩ := Progress.map_eq_next.mp hn
    obtain ⟨last, hrun, rfl⟩ := Instr.run_map_eq_some.mp hr
    cases phase with
    | close =>
      cases hp
      obtain ⟨-, rfl, -⟩ := Instr.run_close.mp hrun
      by_cases hd : d.registry = r
      · subst hd
        have hclosed : (s'.rosterOf d.registry).closed = true := hiff.mpr (.inr rfl)
        cases hbefore : (s.rosterOf d.registry).closed <;>
          simp [owedClosing, closure?, Teardown.Phase.owesClosing, hclosed]
      · simp [owedClosing, closure?, hd, hsame (by simp [closes?, hd])]
    | countClosed w =>
      cases hp
      obtain ⟨-, rfl, -⟩ := Instr.run_count.mp hrun
      rw [hsame (by simp [closes?])]
      by_cases hd : d.registry = r <;>
        simp [owedClosing, closure?, Teardown.Phase.owesClosing, hd]
    | _ =>
      have howes := Instr.Always.of_run
        (Teardown.owesClosing_kept (by simp) (by simp) hp) hrun
      rw [hsame (by simp [closes?])]
      simp [owedClosing, closure?, howes]
  | _ =>
    obtain ⟨step, -, rfl⟩ := Progress.map_eq_next.mp hn
    obtain ⟨last, -, rfl⟩ := Instr.run_map_eq_some.mp hr
    rw [hsame (by simp [closes?])]
    simp [owedClosing, closure?]

/-- The end of a session is counted where its closing is. -/
theorem Job.adds_of_closure? (hn : job.progress = .next instr) (t : TableRef) :
    instr.adds t .sessionsClosed = .ofNat (job.closure?.toList.countP fun c ↦ c.1 = t) := by
  by_cases hcount : ∃ d w, job = .tearingDown d (.countClosed w)
  · obtain ⟨d, w, rfl⟩ := hcount
    cases hn
    by_cases ht : d.table = t <;> simp [Instr.map, Instr.adds, closure?, ht]
  · have hnone : job.closure? = none := by
      unfold closure?
      split
      · next d w => exact absurd ⟨d, w, rfl⟩ hcount
      · rfl
    obtain hzero | ⟨d, w, hjob, -⟩ := adds_sessionsClosed (t := t) hn
    · simp [hzero, hnone]
    · exact absurd ⟨d, w, hjob⟩ hcount

end Step

namespace Service

variable {limits : List Limits} {supply : Supply} {s s' u : Service} {action : Action}
  {h : History} {i : CallRef} {t : TableRef} {r : RegistryRef}

/-- The closings that are counted in a history, in order: of which registry, and at which table. -/
def closures (s : Service) (h : History) : List (TableRef × RegistryRef) :=
  s.gathered (fun _ job ↦ job.closure?) h

/-- A registry that is closed has been counted as often as it is not owed any more. -/
private theorem closed_sub_owed_of_act? (r : RegistryRef) (hact : s.act? supply action = some s') :
    (s'.store.rosterOf r).closed.toInt - s'.total (Job.owedClosing r) =
      (s.store.rosterOf r).closed.toInt - s.total (Job.owedClosing r) +
        (s.ofStep (fun _ job ↦ job.closure?) action).toList.countP fun c ↦ c.2 = r := by
  have hd := does_of_act? hact
  obtain ⟨i, job, instr, next, rfl, hj, hn, hr, hj'⟩ | hne := hd.step_or
  · have howed := Job.owedClosing_step hn hr r
    have hone : (job.closure?.toList.countP fun c ↦ c.2 = r) =
        if job.closure?.map Prod.snd = some r then 1 else 0 := by
      cases hc : job.closure? <;> simp [List.countP_cons]
    rw [hd.total_step hj hj', ofStep_step hj, hone]
    push_cast
    omega
  · rw [hd.total_rest hne fun _ _ _ hj ↦ Job.owedClosing_of_ofRequest? hj r,
      (hd.views_kept hne).2, ofStep_of_ne hne]
    simp

/-- How often the end of a session is counted on the way: once for a registry that becomes closed,
and once for each that was still to be counted, but for those that are still to be counted now. -/
theorem countP_closures (hr : s.run? h = some s') (r : RegistryRef) :
    ((s'.store.rosterOf r).closed.toInt - s'.total (Job.owedClosing r)) =
      ((s.store.rosterOf r).closed.toInt - s.total (Job.owedClosing r)) +
        (s.closures h).countP fun c ↦ c.2 = r :=
  measure_of_run (m := fun s ↦ (s.store.rosterOf r).closed.toInt - s.total (Job.owedClosing r))
    (closed_sub_owed_of_act? r) hr

/-- Whether no teardown of a registry is under way. -/
def Settled (s : Service) (r : RegistryRef) : Prop :=
  ∀ i job, s.job? i = some job → job.tearsDown r = true → job.outcome?.isSome

/-- What is the same for all calls but the teardowns under way has the same sum when there are
none. -/
theorem Settled.total_congr {f g : Job → Int} (hs : s.Settled r)
    (hended : ∀ job o, job.outcome? = some o → f job = g job)
    (hother : ∀ job, job.tearsDown r = false → f job = g job) : s.total f = s.total g := by
  refine Service.total_congr fun i job hj ↦ ?_
  cases htears : job.tearsDown r with
  | true =>
    obtain ⟨o, ho⟩ := Option.isSome_iff_exists.mp (hs i job hj htears)
    exact hended job o ho
  | false => exact hother job htears

/-- Nothing is owed for a registry when no call tears it down. -/
theorem Settled.total_owedClosing (hs : s.Settled r) : s.total (Job.owedClosing r) = 0 := by
  rw [hs.total_congr (g := fun _ ↦ 0) (fun job o ho ↦ Job.owedClosing_of_outcome? ho r) ?_]
  · simp [total]
  · intro job hjob
    cases job with
    | tearingDown d phase => simp_all [Job.tearsDown, Job.owedClosing]
    | _ => rfl

/-- Over a whole run the end of a session is counted once at most, whatever tables its registry is
torn down through. -/
theorem closures_le_one (hr : (withTables limits).run? h = some s) (r : RegistryRef) :
    ((withTables limits).closures h).countP (fun c ↦ c.2 = r) ≤ 1 := by
  have hcount := countP_closures hr r
  have hopen : ((withTables limits).store.rosterOf r).closed = false := by
    simp [withTables, Store.withTables, Store.rosterOf]
  have hnone : (withTables limits).total (Job.owedClosing r) = 0 := rfl
  have howed : 0 ≤ s.total (Job.owedClosing r) := total_nonneg (Job.owedClosing_nonneg r)
  rw [hopen, hnone] at hcount
  cases hclosed : (s.store.rosterOf r).closed <;> simp [hclosed] at hcount <;> omega

/-- A table's counter of sessions that have ended grows by what is counted there, unless somebody
edits it. -/
theorem sessionsClosed_of_run (hr : s.run? h = some s')
    (hreset : ∀ e ∈ h, e.2 ≠ .resetCounters t)
    (hcount : ∀ e ∈ h, ∀ which amount, e.2 ≠ .count t which amount) :
    (s'.store.countersOf t).sessionsClosed = (s.store.countersOf t).sessionsClosed +
      .ofNat ((s.closures h).countP fun c ↦ c.1 = t) := by
  induction h generalizing s with
  | nil =>
    cases hr
    simp [closures, gathered]
  | cons e h ih =>
    obtain ⟨supply, action⟩ := e
    obtain ⟨-, v, hv, hr⟩ := run?_cons_eq_some.mp hr
    have hd := does_of_act? hv
    rw [closures, gathered_cons hv, List.countP_append, UInt64.ofNat_add, ← UInt64.add_assoc,
      ih hr (fun e he ↦ hreset e (by simp [he])) fun e he ↦ hcount e (by simp [he])]
    congr 1
    obtain ⟨i, job, instr, next, rfl, hj, hn, hrun, -⟩ | hne := hd.step_or
    · rw [ofStep_step hj, ← Job.adds_of_closure? hn]
      exact Instr.counters_of_run hrun t .sessionsClosed
    · rw [counters_kept hv hne (hreset _ List.mem_cons_self) (hcount _ List.mem_cons_self),
        ofStep_of_ne hne]
      simp

end Service

end SessionBuffers
