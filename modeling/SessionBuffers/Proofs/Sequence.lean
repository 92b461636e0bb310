import SessionBuffers.Proofs.Alone
import SessionBuffers.Proofs.Ledger

/-!
# One client, one call after the other

A client that lets every call come to its outcome, and drops the guard it may have got, before it
does anything else. Between two of its calls nothing is locked and nothing is owed, so an ideal
state can be read off the store (`Service.ideal`), and the next call takes its effect on that
(`Service.Calm.ends`).
-/

namespace SessionBuffers

/-! ### Jobs by themselves -/

namespace Job

/-- So many steps of a job by itself, from one store to another. -/
inductive Walks (supply : Supply) (who : CallRef) : Nat → Job → Store → Job → Store → Prop
  | rest {job : Job} {s : Store} : Walks supply who 0 job s job s
  | step {m : Nat} {job next last : Job} {instr : Instr Job} {s s' s'' : Store}
    (hn : job.progress = .next instr) (hr : instr.run supply who s = some (next, s'))
    (hw : Walks supply who m next s' last s'') : Walks supply who (m + 1) job s last s''

/-- A job that takes effect at one moment and has still everything to do. -/
structure Untouched (s : Store) (job : Job) : Prop where
  atomic : job.request.isAtomic = true
  named : job.Named s
  owes : ∀ p, job.Owes p s
  indexDebt : job.indexDebt? = none
  rosterDebt : job.rosterDebt? = none
  unborn : job.unborn? = none
  answer : job.answer? s = none

variable {job : Job} {instr : Instr Job} {o : Outcome} {p : Ideal} {s : Store}

/-- A job that has still everything to do has no guard. -/
theorem Untouched.granted? (h : job.Untouched s) : job.granted? = none := by
  have hanswer := h.answer
  unfold Job.granted?
  split
  · cases hanswer
  · cases hanswer
  · cases hanswer
  · cases h.atomic
  · rfl

/-- A job that has ended owes nothing. -/
theorem owes_of_outcome? (ho : job.outcome? = some o) (p : Ideal) (s : Store) : job.Owes p s := by
  have hn := outcome?_eq_some.mp ho
  cases job with
  | attaching a phase =>
    cases phase with
    | start =>
      simp only [progress, Attachment.progress] at hn
      split at hn <;> cases hn
    | ended o => trivial
    | _ => cases hn
  | tearingDown d phase =>
    cases phase <;> cases hn
    exact fun _ _ hw ↦ by (cases hw)
  | _ _ phase =>
    cases phase <;> cases hn
    trivial

/-- What takes effect at one moment neither opens a session nor ends one. -/
theorem onSessions_of_owes (h : job.Owes p s) (hn : job.progress = .next instr)
    (sessions : Array Session) : instr.onSessions sessions = sessions := by
  cases job with
  | attaching a phase =>
    cases phase with
    | start =>
      simp only [progress, Attachment.progress] at hn
      split at hn <;> cases hn <;> rfl
    | «open» t r => exact h.elim
    | _ => cases hn <;> rfl
  | tearingDown d phase =>
    cases phase with
    | finish c => exact h.elim
    | _ => cases hn <;> rfl
  | editing c phase =>
    cases phase with
    | act =>
      simp only [progress, RosterCall.progress, RosterCall.act] at hn
      split at hn <;> cases hn <;> rfl
    | _ => cases hn <;> rfl
  | _ _ phase => cases phase <;> cases hn <;> rfl

end Job

namespace Service

/-! ### What the client does -/

/-- A request is made, and its call makes its steps to the end while nothing else happens. -/
def Completes (supply : Supply) (s : Service) (request : Request) (o : Outcome)
    (s' : Service) : Prop :=
  ∃ m, s.run? ((supply, .invoke request) :: List.replicate m (supply, .step s.calls.size)) =
    some s' ∧ s'.outcome? s.calls.size = some o

/-- A guard is used for some edits and dropped. The content is read before the first edit and after
every edit. -/
def use? (s : Service) (i : CallRef) : List (Side × Region.Edit) → Option (List Bytes × Service)
  | [] => do
    let content ← s.content? i
    return ([content.bytes], ← s.dropGuard? i)
  | (which, e) :: edits => do
    let content ← s.content? i
    let s ← s.edit? i which e
    let (seen, s) ← s.use? i edits
    return (content.bytes :: seen, s)

/-- One errand: the call comes to its outcome, and the guard it ends with, if any, is used and
dropped. -/
inductive Runs (supply : Supply) (s : Service) (e : Errand) : Receipt → Service → Prop
  | plain {outcome : Outcome} {s' : Service} (hc : s.Completes supply e.request outcome s')
    (hg : outcome.guard? = none) : Runs supply s e { outcome } s'
  | guarded {outcome : Outcome} {g : Guard} {seen : List Bytes} {u s' : Service}
    (hc : s.Completes supply e.request outcome u) (hg : outcome.guard? = some g)
    (hu : u.use? s.calls.size e.edits = some (seen, s')) : Runs supply s e { outcome, seen } s'

/-- One errand after the other. -/
inductive RunsAll (supply : Supply) : Service → List Errand → List Receipt → Prop
  | nil {s : Service} : RunsAll supply s [] []
  | cons {s s' : Service} {e : Errand} {es : List Errand} {receipt : Receipt}
    {receipts : List Receipt} (h : s.Runs supply e receipt s')
    (hs : RunsAll supply s' es receipts) : RunsAll supply s (e :: es) (receipt :: receipts)

variable {limits : List Limits} {supply : Supply} {s s' u : Service} {request : Request}
  {o q : Outcome} {job last : Job} {i : CallRef} {store store' : Store} {calls : Array Call}
  {m : Nat} {h : History} {p : Ideal}

/-! ### A call comes to one outcome -/

/-- A call that has ended makes no more steps. -/
private theorem run?_of_outcome? (ho : s.outcome? i = some o) {m : Nat}
    (hr : s.run? (List.replicate m (supply, .step i)) = some s') : s' = s := by
  cases m with
  | zero => exact (Option.some.inj hr).symm
  | succ m =>
    obtain ⟨-, u, hstep, -⟩ := run?_cons_eq_some.mp hr
    obtain ⟨call, instr, _, _, hcall, hn, -⟩ := step?_eq_some.mp hstep
    have hended : call.job.outcome? = some o := by simpa [Service.outcome?, hcall] using ho
    cases hn.symm.trans (Job.outcome?_eq_some.mp hended)

/-- What a call comes to is settled by the supply. -/
theorem Completes.unique (h : s.Completes supply request o s')
    (k : s.Completes supply request q u) : o = q ∧ s' = u := by
  obtain ⟨m, hr, ho⟩ := h
  obtain ⟨n, hk, hq⟩ := k
  have hle {m n : Nat} (hmn : m ≤ n) {v w : Service} {o : Outcome}
      (hv : s.run? ((supply, .invoke request) :: List.replicate m (supply, .step s.calls.size)) =
        some v) (ho : v.outcome? s.calls.size = some o)
      (hw : s.run? ((supply, .invoke request) :: List.replicate n (supply, .step s.calls.size)) =
        some w) : w = v := by
    obtain ⟨d, rfl⟩ := Nat.exists_eq_add_of_le hmn
    rw [← List.replicate_append_replicate, ← List.cons_append, run?_append, hv] at hw
    exact run?_of_outcome? ho hw
  obtain hmn | hnm := Nat.le_total m n
  · obtain rfl := hle hmn hr ho hk
    exact ⟨Option.some.inj (ho.symm.trans hq), rfl⟩
  · obtain rfl := hle hnm hk hq hr
    exact ⟨Option.some.inj (ho.symm.trans hq), rfl⟩

/-- An errand brings one receipt. -/
theorem Runs.unique {e : Errand} {receipt other : Receipt} (h : s.Runs supply e receipt s')
    (k : s.Runs supply e other u) : receipt = other ∧ s' = u := by
  cases h with
  | plain hc hg =>
    cases k with
    | plain hc' _ =>
      obtain ⟨rfl, rfl⟩ := hc.unique hc'
      exact ⟨rfl, rfl⟩
    | guarded hc' hg' _ =>
      obtain ⟨rfl, rfl⟩ := hc.unique hc'
      cases hg.symm.trans hg'
  | guarded hc hg hu =>
    cases k with
    | plain hc' hg' =>
      obtain ⟨rfl, rfl⟩ := hc.unique hc'
      cases hg'.symm.trans hg
    | guarded hc' _ hu' =>
      obtain ⟨rfl, rfl⟩ := hc.unique hc'
      cases hu.symm.trans hu'
      exact ⟨rfl, rfl⟩

/-! ### Steps of one call -/

/-- The latest call is the one that has been changed last. -/
private theorem modify_push (calls : Array Call) (call : Call) (f : Call → Call) :
    (calls.push call).modify calls.size f = calls.push (f call) := by
  apply Array.ext_getElem?
  intro j
  rw [Array.getElem?_modify, Array.getElem?_push, Array.getElem?_push]
  by_cases hj : j = calls.size
  · simp [hj]
  · simp [hj, Ne.symm hj]

/-- The latest call makes the steps of its job. -/
theorem run?_of_walks (hw : Job.Walks supply calls.size m job store last store') :
    run? ⟨store, calls.push { job }⟩ (List.replicate m (supply, .step calls.size)) =
      some ⟨store', calls.push { job := last }⟩ := by
  induction hw with
  | rest => rfl
  | @step m job next last instr s s' s'' hn hr _ ih =>
    refine run?_cons_eq_some.mpr ⟨rfl, ⟨s', calls.push { job := next }⟩, ?_, ih⟩
    refine step?_eq_some.mpr ⟨{ job }, instr, next, s', by simp, hn, hr, ?_⟩
    rw [modify_push]

/-- While only the latest call makes steps, no other call changes, and no guard is dropped. -/
theorem calls_of_run? (hcalls : s.calls = calls.push { job })
    (hr : s.run? (List.replicate m (supply, .step calls.size)) = some s') :
    ∃ last, s'.calls = calls.push { job := last } := by
  induction m generalizing s job with
  | zero => exact ⟨job, Option.some.inj hr ▸ hcalls⟩
  | succ m ih =>
    obtain ⟨-, u, hstep, hr⟩ := run?_cons_eq_some.mp hr
    obtain ⟨call, instr, next, store, hcall, -, -, rfl⟩ := step?_eq_some.mp hstep
    have hnext : (s.calls.modify calls.size fun call ↦ { call with job := next }) =
        calls.push { job := next } := by
      rw [hcalls, modify_push]
    exact ih hnext hr

/-- A call comes to its outcome by the steps of its job. -/
theorem completes_of_walks (ha : s.allows (.invoke request) = true)
    (hj : Job.ofRequest? s.store request = some job)
    (hw : Job.Walks supply s.calls.size m job s.store last store) (ho : last.outcome? = some o) :
    s.Completes supply request o ⟨store, s.calls.push { job := last }⟩ := by
  refine ⟨m, run?_cons_eq_some.mpr ⟨ha, { s with calls := s.calls.push { job } }, ?_,
    run?_of_walks hw⟩, ?_⟩
  · simp [act?, invoke?, hj]
  · simp [Service.outcome?, ho]

/-! ### Nothing is owed -/

/-- What there is to see of a service while nothing is owed. -/
def ideal (s : Service) : Ideal where
  limits := s.store.tables.map Table.limits
  sessions := s.store.registries.map Registry.session
  index := s.store.indexOf
  nextId := s.store.nextIdOf
  roster := s.store.rosterOf
  content := s.store.contentOf
  born := .range s.store.storages.size
  guard := s.granted?
  answer i := (s.job? i).bind fun job ↦ job.answer? s.store

/-- An ideal state goes with every service whose calls have ended or have still everything to do. -/
theorem coupled_ideal (h : ∀ i job, s.job? i = some job →
    (∃ o, job.outcome? = some o) ∨ job.Untouched s.store) : s.Coupled [] s.ideal := by
  have hunborn {i : CallRef} {job : Job} (hj : s.job? i = some job) : job.unborn? = none := by
    obtain ⟨o, ho⟩ | hnew := h i job hj
    · exact Job.unborn?_of_outcome? ho
    · exact hnew.unborn
  have hnew {i : CallRef} {job : Job} {instr : Instr Job} (hj : s.job? i = some job)
      (hn : job.progress = .next instr) : job.Untouched s.store := by
    refine (h i job hj).resolve_left ?_
    rintro ⟨o, ho⟩
    cases hn.symm.trans (Job.outcome?_eq_some.mp ho)
  constructor
  case limits | sessions => rfl
  case nextId | guard | answer => exact fun _ ↦ rfl
  case index | roster => exact fun _ _ ↦ rfl
  case content => exact fun _ _ _ ↦ rfl
  case born =>
    intro b hb
    refine ⟨Store.has_content.mpr (List.mem_range.mp hb), fun i job hj ↦ ?_⟩
    simp [hunborn hj]
  case settled => exact fun b hb ↦ .inl (List.mem_range.mpr (Store.has_content.mp hb))
  case owes =>
    intro i job hj
    obtain ⟨o, ho⟩ | hnew := h i job hj
    · exact Job.owes_of_outcome? ho _ _
    · exact hnew.owes _
  case named => exact fun i job instr hj hn ↦ (hnew hj hn).named
  case atomic => exact fun i job instr hj hn ↦ (hnew hj hn).atomic
  case supplied =>
    intro i job hj hu
    rw [hunborn hj] at hu
    cases hu
  case room => exact fun i a b hj ↦ by cases hunborn hj

/-- What takes effect at one moment leaves the sessions alone. -/
private theorem Coupled.sessions_kept (hc : s.Coupled h p) (hr : Reachable limits s)
    (hrun : s.run? (List.replicate m (supply, .step i)) = some s') :
    s'.store.sessions = s.store.sessions := by
  induction m generalizing s h p with
  | zero => rw [Option.some.inj hrun]
  | succ m ih =>
    obtain ⟨hallows, u, hact, hrun⟩ := run?_cons_eq_some.mp hrun
    have hd := does_of_act? hact
    obtain ⟨call, instr, next, hcall, hn, hstep, -⟩ := hd.calls_step
    have howes := hc.owes i _ (job?_eq_some.mpr ⟨call, hcall, rfl⟩)
    obtain ⟨_, p', -, -, hc⟩ := hc.step hr hd
    rw [ih hc (hr.act hallows hact) hrun, Instr.sessions_of_run hstep,
      Job.onSessions_of_owes howes hn]

/-- The latest call runs to its end with the effect it has on the ideal state, when it has still
everything to do, all others have ended, and no guard is held. -/
theorem Reachable.ends (hr : Reachable limits s) (hcalls : s.calls = calls.push { job })
    (hothers : ∀ (j : CallRef) (call : Call), calls[j]? = some call →
      ∃ o, call.job.outcome? = some o)
    (hfree : ∀ i, s.granted? i = none) (hjob : job.Untouched s.store) (supply : Supply) :
    ∃ m s' last b, s.run? (List.replicate m (supply, .step calls.size)) = some s' ∧
      s'.calls = calls.push { job := last } ∧
      last.outcome? = some (s.ideal.effect supply b job.request).1 ∧ s'.Idle ∧
      s'.store.sessions = s.store.sessions ∧ b ∉ s.ideal.born ∧
      s'.Coupled [] (s.ideal.after (.call calls.size supply b job.request)) := by
  have hcases (j : CallRef) (other : Job) (hj : s.job? j = some other) :
      j ≠ calls.size ∧ (∃ o, other.outcome? = some o) ∨ j = calls.size ∧ other = job := by
    obtain ⟨call, hcall, rfl⟩ := job?_eq_some.mp hj
    rw [hcalls, Array.getElem?_push] at hcall
    split at hcall
    · next he =>
      cases hcall
      exact .inr ⟨he, rfl⟩
    · next hne => exact .inl ⟨hne, hothers j call hcall⟩
  have hc : s.Coupled [] s.ideal := coupled_ideal fun j other hj ↦ by
    obtain ⟨-, ho⟩ | ⟨-, rfl⟩ := hcases j other hj
    · exact .inl ho
    · exact .inr hjob
  have hlone (j : CallRef) (hflight : s.InFlight j) : j = calls.size := by
    obtain ⟨other, hj, hnone⟩ := hflight
    obtain ⟨-, o, ho⟩ | ⟨rfl, -⟩ := hcases j other hj
    · rw [ho] at hnone
      cases hnone
    · rfl
  have hj : s.job? calls.size = some job := by simp [job?, hcalls]
  have hnone : s.ideal.answer calls.size = none := by
    rw [hc.answer_eq hj, hjob.answer]
  have hpermits : s.ideal.Permits job.request := by
    have hadmits (b : StorageRef) (mode : Mode) : s.ideal.Admits b mode := fun i g hg ↦ by
      cases (hfree i).symm.trans hg
    cases job.request <;> simp [Ideal.Permits, hadmits]
  have hpast : ∀ e ∈ ([] : History), e.1 = supply := by simp
  obtain ⟨m, s', p', last, hrun, hlast, ho, hlone', -, hc', hends⟩ := Coupled.runs _ hc hr hlone hj
    (fun _ ↦ hpermits) hpast rfl
  obtain ⟨hanswer, -⟩ | ⟨b, hready, rfl⟩ := hends
  · exact absurd hnone hanswer
  obtain ⟨last', hcalls'⟩ := calls_of_run? hcalls hrun
  obtain rfl : last' = last := by simpa [job?, hcalls'] using hlast
  obtain ⟨o, ho⟩ := Option.isSome_iff_exists.mp ho
  have hidle := idle_of_outcome? hlone' hlast ho
  have hout : s'.outcome? calls.size = some o := by simp [Service.outcome?, hcalls', ho]
  refine ⟨m, s', last', b, hrun, hcalls', ?_, hidle, hc.sessions_kept hr hrun, hready.2.2.2.2,
    hc'.forget hidle⟩
  rw [ho, ← hout, ← hc'.answer_eq_outcome? hidle]
  exact Function.update_self ..

end Service

end SessionBuffers
