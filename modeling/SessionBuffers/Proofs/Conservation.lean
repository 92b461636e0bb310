import SessionBuffers.Proofs.Turnover

/-!
# Counters and the number of buffers

Counters are advanced after the indexes have changed, and a teardown counts all its buffers at its
end. So what the counters of a table show differs from the number of its buffers by what calls under
way have still to count. Taken together the two are conserved: since the last reset the counters
have moved as the number of buffers has, but for what is uncounted (`Service.standing`).
-/

namespace SessionBuffers

/-- The counter that follows one kind of change of an index. -/
def Passage.counter : Passage → Counter
  | inserted => .allocations
  | freed => .frees
  | reclaimed => .buffersReclaimed

/-- By how much a job has advanced the counter of one kind of change. -/
def Job.counted (t : TableRef) (passage : Passage) : Job → Nat
  | allocating a (.report _ _) | allocating a (.ended (.handle _)) =>
    if a.table = t ∧ passage = .inserted then 1 else 0
  | freeing f .report | freeing f (.ended .done) => if f.table = t ∧ passage = .freed then 1 else 0
  | tearingDown d (.countClosed w) | tearingDown d (.report w) =>
    if d.table = t ∧ passage = .reclaimed then w.released else 0
  | tearingDown d (.ended (.number n)) => if d.table = t ∧ passage = .reclaimed then n else 0
  | _ => 0

/-- What a job that has changed the index of a table, but has not counted it yet, takes off the
number of buffers or adds to it. -/
def Job.uncounted (t : TableRef) : Job → Int
  | allocating a (.unlockTable _ _) | allocating a (.enlist _ _)
  | allocating a (.unlockRegistry _ _)
  | allocating a (.unlockContent _ _) | allocating a (.count _ _) => if a.table = t then -1 else 0
  | freeing f (.forget _) | freeing f (.unlockRegistry _) | freeing f (.unlockTable _)
  | freeing f (.dispose _) | freeing f (.unlockContent _) | freeing f .count =>
    if f.table = t then 1 else 0
  | tearingDown d (.find _ w) | tearingDown d (.reportMissing _ w)
  | tearingDown d (.lockContent _ _ w) | tearingDown d (.erase _ _ w) =>
    if d.table = t then w.released else 0
  | tearingDown d (.dispose _ _ w) | tearingDown d (.unlockContent _ _ w) =>
    if d.table = t then w.released + 1 else 0
  | tearingDown d (.unlockRegistry w) | tearingDown d (.unlockTable w)
  | tearingDown d (.countReleased w) => if d.table = t then w.released else 0
  | _ => 0

/-- How many buffers of a table a teardown has released that is to be given content next. -/
def Job.releasedWaiting (t : TableRef) : Job → Int
  | tearingDown d (.lockContent _ _ w) => if d.table = t then w.released else 0
  | _ => 0

/-- What a job has changed it has counted, or it is uncounted. -/
theorem Job.counted_eq (t : TableRef) (job : Job) :
    (job.counted t .inserted : Int) - job.counted t .freed - job.counted t .reclaimed =
      job.inserted t - job.removed t + job.uncounted t := by
  cases job with
  | allocating a phase =>
    by_cases ht : a.table = t <;> cases phase with
    | ended o => cases o <;> simp [counted, inserted, kept?, removed, uncounted, ht]
    | _ => simp [counted, inserted, kept?, removed, uncounted, ht]
  | freeing f phase =>
    by_cases ht : f.table = t <;> cases phase with
    | ended o =>
      cases o <;> simp [counted, inserted, kept?, removed, uncounted, Removal.Phase.hasErased, ht]
    | _ => simp [counted, inserted, kept?, removed, uncounted, Removal.Phase.hasErased, ht]
  | tearingDown d phase =>
    by_cases ht : d.table = t <;> cases phase with
    | ended o =>
      cases o <;> simp [counted, inserted, kept?, removed, uncounted, Teardown.Phase.taken, ht]
    | _ => simp [counted, inserted, kept?, removed, uncounted, Teardown.Phase.taken, ht]
  | _ _ phase => simp [counted, inserted, kept?, removed, uncounted]

/-- A job that has ended or is to be given a lock next has counted all it has changed, but for what
a teardown has released on its way. -/
theorem Job.uncounted_of_rest {job : Job} (h : job.outcome?.isSome ∨ job.wants.isSome)
    (t : TableRef) : job.uncounted t = job.releasedWaiting t := by
  cases job with
  | allocating a phase =>
    cases phase <;> first
      | rfl
      | simp [outcome?, wants, progress, Allocation.progress, Progress.map, Instr.map,
          Instr.wants] at h
  | freeing f phase =>
    cases phase <;> first
      | rfl
      | simp [outcome?, wants, progress, Removal.progress, Progress.map, Instr.map,
          Instr.wants] at h
  | tearingDown d phase =>
    cases phase <;> first
      | rfl
      | simp [outcome?, wants, progress, Teardown.progress, Progress.map, Instr.map,
          Instr.wants] at h
  | _ _ phase => rfl

section Step

variable {supply : Supply} {i : CallRef} {s s' : Store} {job next : Job} {instr : Instr Job}

/-- A step that counts nothing about buffers. -/
private theorem counted_kept {t : TableRef} {passage : Passage}
    (hr : instr.run supply i s = some (next, s')) (hadds : instr.adds t passage.counter = 0)
    (hsame : instr.Always fun next ↦ next.counted t passage = job.counted t passage) :
    ∃ n : Nat, next.counted t passage = job.counted t passage + n ∧
      instr.adds t passage.counter = .ofNat n :=
  ⟨0, hsame.of_run hr, hadds⟩

/-- A step that counts the buffers that have passed, which its job has not counted before. -/
private theorem counted_passed {t u : TableRef} {passage : Passage} (own : Passage) {n : Nat}
    {x : Job} (hr : (Instr.count u own.counter (.ofNat n) x).run supply i s = some (next, s'))
    (hbefore : job.counted t passage = 0)
    (hafter : x.counted t passage = if u = t ∧ passage = own then n else 0) :
    ∃ m : Nat, next.counted t passage = job.counted t passage + m ∧
      (Instr.count u own.counter (.ofNat n) x).adds t passage.counter = .ofNat m := by
  obtain ⟨-, rfl, -⟩ := Instr.run_count.mp hr
  refine ⟨_, by rw [hbefore, hafter, Nat.zero_add], ?_⟩
  cases own <;> cases passage <;> by_cases hu : u = t <;>
    simp [Instr.adds, Passage.counter, hu]

/-- What counts something else does not count buffers that have passed. -/
private theorem adds_eq_zero {σ : Type} {t u : TableRef} {passage : Passage} {which : Counter}
    {amount : UInt64} {x : σ} (h : which = .allocationFailures ∨ which = .freeMisses ∨
      which = .lookups ∨ which = .lookupMisses ∨ which = .sessionsOpened ∨
      which = .sessionsClosed) :
    (Instr.count u which amount x).adds t passage.counter = 0 := by
  refine if_neg fun he ↦ ?_
  obtain ⟨-, rfl⟩ := he
  cases passage <;> simp [Passage.counter] at h

private theorem counted_allocation (t : TableRef) (passage : Passage) {a : Allocation}
    {phase : Allocation.Phase} {step : Instr Allocation.Phase} (hp : a.progress phase = .next step)
    (hr : (step.map (.allocating a)).run supply i s = some (next, s')) :
    ∃ n : Nat, next.counted t passage = Job.counted t passage (.allocating a phase) + n ∧
      (step.map (Job.allocating a)).adds t passage.counter = .ofNat n := by
  cases phase with
  | ended o => cases hp
  | checkLimits =>
    cases hp
    refine counted_kept hr rfl fun limits ↦ ?_
    dsimp only [Function.comp]
    split <;> simp [Job.counted]
  | count b key =>
    cases hp
    exact counted_passed .inserted hr rfl rfl
  | countFailure why =>
    cases hp
    exact counted_kept hr (adds_eq_zero (by simp)) rfl
  | _ =>
    cases hp
    exact counted_kept hr rfl (by simp [Instr.map, Instr.Always, Job.counted])

private theorem counted_removal (t : TableRef) (passage : Passage) {f : Removal}
    {phase : Removal.Phase} {step : Instr Removal.Phase} (hp : f.progress phase = .next step)
    (hr : (step.map (.freeing f)).run supply i s = some (next, s')) :
    ∃ n : Nat, next.counted t passage = Job.counted t passage (.freeing f phase) + n ∧
      (step.map (Job.freeing f)).adds t passage.counter = .ofNat n := by
  cases phase with
  | ended o => cases hp
  | find | checkOwner _ =>
    cases hp
    refine counted_kept hr rfl fun x ↦ ?_
    dsimp only [Function.comp]
    split <;> simp [Job.counted]
  | count =>
    cases hp
    exact counted_passed .freed hr rfl rfl
  | countMiss inTable =>
    cases hp
    exact counted_kept hr (adds_eq_zero (by simp)) rfl
  | _ =>
    cases hp
    exact counted_kept hr rfl (by simp [Instr.map, Instr.Always, Job.counted])

private theorem counted_resume (t : TableRef) (passage : Passage) (d : Teardown)
    (w : Teardown.Sweep) : Job.counted t passage (.tearingDown d (.resume w)) = 0 := by
  unfold Teardown.Phase.resume
  split <;> simp [Job.counted]

private theorem counted_teardown (t : TableRef) (passage : Passage) {d : Teardown}
    {phase : Teardown.Phase} {step : Instr Teardown.Phase} (hp : d.progress phase = .next step)
    (hr : (step.map (.tearingDown d)).run supply i s = some (next, s')) :
    ∃ n : Nat, next.counted t passage = Job.counted t passage (.tearingDown d phase) + n ∧
      (step.map (Job.tearingDown d)).adds t passage.counter = .ofNat n := by
  cases phase with
  | ended o => cases hp
  | find key w =>
    cases hp
    refine counted_kept hr rfl fun index ↦ ?_
    dsimp only [Function.comp]
    split <;> simp [Job.counted]
  | drain first =>
    cases hp
    exact counted_kept hr rfl fun keys ↦ counted_resume t passage d _
  | reportMissing key w | unlockContent key b w =>
    cases hp
    exact counted_kept hr rfl (counted_resume t passage d _)
  | countReleased w =>
    cases hp
    exact counted_passed .reclaimed hr rfl (by split <;> rfl)
  | countClosed w =>
    cases hp
    exact counted_kept hr (adds_eq_zero (by simp)) rfl
  | _ =>
    cases hp
    exact counted_kept hr rfl (by simp [Instr.map, Instr.Always, Job.counted])

/-- A step advances the counters by what its job counts. -/
theorem Job.counted_step (t : TableRef) (passage : Passage) (hn : job.progress = .next instr)
    (hr : instr.run supply i s = some (next, s')) :
    ∃ n : Nat, next.counted t passage = job.counted t passage + n ∧
      instr.adds t passage.counter = .ofNat n := by
  cases job <;> obtain ⟨step, hp, rfl⟩ := Progress.map_eq_next.mp hn
  case allocating a phase => exact counted_allocation t passage hp hr
  case freeing f phase => exact counted_removal t passage hp hr
  case tearingDown d phase => exact counted_teardown t passage hp hr
  -- The other operations count nothing about buffers.
  all_goals
    obtain ⟨x, -, rfl⟩ := Instr.run_map_eq_some.mp hr
    refine ⟨0, rfl, ?_⟩
  case attaching a phase =>
    cases phase with
    | start =>
      simp only [Attachment.progress] at hp
      split at hp <;> cases hp <;> rfl
    | count u r =>
      cases hp
      exact adds_eq_zero (by simp)
    | _ => cases hp <;> rfl
  case lookingUp l phase =>
    cases phase with
    | count b | countMiss =>
      cases hp
      exact adds_eq_zero (by simp)
    | _ => cases hp <;> rfl
  case editing c phase =>
    cases phase with
    | act =>
      cases hp
      unfold RosterCall.act
      split <;> rfl
    | _ => cases hp <;> rfl
  all_goals
    next phase => cases phase <;> cases hp <;> rfl

end Step

namespace Service

variable {limits : List Limits} {supply : Supply} {s s' : Service} {action : Action} {h : History}
  {t : TableRef} {base : Passage → Int}

/-- How often all calls have counted one kind of change of a table. -/
def counted (s : Service) (t : TableRef) (passage : Passage) : Int :=
  s.total fun job ↦ job.counted t passage

/-- The number of buffers in a table, as far as calls have counted what they have changed. -/
def standing (s : Service) (t : TableRef) : Int :=
  (s.store.indexOf t).size + s.total (Job.uncounted t)

/-- The service at the last reset of the counters of a table in a history. -/
def lastReset (t : TableRef) : Service → History → Option Service
  | _, [] => none
  | s, (supply, action) :: h =>
    match s.act? supply action with
    | none => none
    | some s => (s.lastReset t h).or (if action = .resetCounters t then some s else none)

/-- A number since the last reset of the counters of a table, at which it is taken to be zero. -/
def sinceReset (f : Service → Int) (t : TableRef) (start s : Service) (h : History) : Int :=
  f s - ((start.lastReset t h).map f).getD 0

/-- What calls have counted is the number of buffers, but for what is uncounted. -/
theorem Reachable.counted_eq_standing (hs : Reachable limits s) (t : TableRef) :
    s.counted t .inserted - s.counted t .freed - s.counted t .reclaimed = s.standing t := by
  obtain ⟨h, hr⟩ := hs
  have huncounted : s.total (Job.uncounted t) = s.total fun job ↦
      ((job.counted t .inserted : Int) - job.counted t .freed - job.counted t .reclaimed) -
        (job.inserted t - job.removed t) :=
    total_congr fun i job _ ↦ by rw [job.counted_eq]; omega
  rw [standing, huncounted, ← (Reachable.marked hr).size t]
  simp only [total_sub, counted]
  omega

/-- Whether the counters of a table have moved by what calls have counted beyond a base. -/
def Follows (s : Service) (t : TableRef) (base : Passage → Int) : Prop :=
  ∀ passage : Passage, ∃ n : Nat, s.counted t passage = base passage + n ∧
    (s.store.countersOf t).get passage.counter = .ofNat n

/-- Counters follow what calls count, whatever happens but an edit by hand; a reset is a new
base. -/
theorem Follows.of_act? (hf : s.Follows t base) (hact : s.act? supply action = some s')
    (hcount : ∀ which amount, action ≠ .count t which amount) :
    s'.Follows t (if action = .resetCounters t then s'.counted t else base) := by
  by_cases hreset : action = .resetCounters t
  · subst hreset
    obtain ⟨hzero, -⟩ := counters_reset hact
    rw [if_pos rfl]
    intro passage
    refine ⟨0, by simp, ?_⟩
    rw [hzero]
    cases passage <;> rfl
  · rw [if_neg hreset]
    intro passage
    obtain ⟨n, hn, hget⟩ := hf passage
    have hd := does_of_act? hact
    obtain ⟨i, job, instr, next, rfl, hj, hp, hr, hj'⟩ | hne := hd.step_or
    · obtain ⟨m, hm, hadds⟩ := Job.counted_step t passage hp hr
      refine ⟨n + m, ?_, ?_⟩
      · rw [counted, hd.total_step hj hj', ← counted, hn, hm]
        omega
      · rw [Instr.counters_of_run hr, hget, hadds, ← UInt64.ofNat_add]
    · refine ⟨n, ?_, by rw [counters_kept hact hne hreset hcount, hget]⟩
      rw [← hn]
      refine hd.total_rest hne fun request _ job hr ↦ ?_
      cases Job.ofRequest?_eq_some.mp hr <;> rfl

theorem countersOf_withTables (limits : List Limits) (t : TableRef) :
    (withTables limits).store.countersOf t = {} := by
  cases h : limits[t]? <;> simp [withTables, Store.withTables, Store.countersOf, h]

theorem follows_withTables (limits : List Limits) (t : TableRef) :
    (withTables limits).Follows t fun _ ↦ 0 := by
  intro passage
  refine ⟨0, by simp [counted, total, withTables], ?_⟩
  rw [countersOf_withTables]
  cases passage <;> rfl

/-- Counters follow what calls count through a whole history, from its last reset on. -/
theorem Follows.run (hf : s.Follows t base) (hr : s.run? h = some s')
    (hcount : ∀ e ∈ h, ∀ which amount, e.2 ≠ .count t which amount) :
    s'.Follows t fun passage ↦
      ((s.lastReset t h).map fun r ↦ r.counted t passage).getD (base passage) := by
  induction h generalizing s base with
  | nil =>
    cases hr
    exact hf
  | cons e h ih =>
    obtain ⟨ha, u, hu, hr⟩ := run?_cons_eq_some.mp hr
    have hrest := ih (hf.of_act? hu (hcount e (by simp))) hr fun e' he' ↦ hcount e' (by simp [he'])
    intro passage
    obtain ⟨n, hn, hget⟩ := hrest passage
    refine ⟨n, hn.trans ?_, hget⟩
    simp only [lastReset, hu]
    cases u.lastReset t h with
    | some r => rfl
    | none => split <;> simp_all

/-- The service at a reset has been reached. -/
private theorem Reachable.lastReset {r : Service} (hs : Reachable limits s)
    (hr : s.run? h = some s') (hl : s.lastReset t h = some r) : Reachable limits r := by
  induction h generalizing s with
  | nil => cases hl
  | cons e h ih =>
    obtain ⟨ha, u, hu, hr⟩ := run?_cons_eq_some.mp hr
    have hreach := hs.act ha hu
    simp only [Service.lastReset, hu] at hl
    cases hlast : u.lastReset t h with
    | some q =>
      rw [hlast] at hl
      cases hl
      exact ih hreach hr hlast
    | none =>
      rw [hlast] at hl
      split at hl
      · cases hl
        exact hreach
      · cases hl

theorem lastReset_eq_none (hnone : ∀ e ∈ h, e.2 ≠ .resetCounters t) :
    s.lastReset t h = none := by
  induction h generalizing s with
  | nil => rfl
  | cons e h ih =>
    simp only [lastReset]
    cases s.act? e.1 e.2 with
    | none => rfl
    | some u => simp [ih fun e' he' ↦ hnone e' (by simp [he']), hnone e (by simp)]

/-- When every call has ended or is to be given a lock next, nothing is uncounted but what waiting
teardowns have released. -/
theorem standing_of_waiting (h : ∀ i, s.InFlight i → (s.wants i).isSome) :
    s.standing t = (s.store.indexOf t).size + s.total (Job.releasedWaiting t) := by
  have hsame : s.total (Job.uncounted t) = s.total (Job.releasedWaiting t) := by
    refine total_congr fun i job hj ↦ Job.uncounted_of_rest ?_ t
    obtain ⟨call, hc, rfl⟩ := job?_eq_some.mp hj
    cases ho : call.job.outcome? with
    | some o => exact .inl rfl
    | none =>
      right
      simpa [Service.wants, hc] using h i ⟨call.job, hj, ho⟩
  rw [standing, hsame]

theorem Idle.total_released (hidle : s.Idle) : s.total (Job.releasedWaiting t) = 0 := by
  refine hidle.total_eq_zero fun job o ho ↦ ?_
  cases job with
  | tearingDown d phase => cases phase <;> first
    | rfl
    | cases Job.outcome?_eq_some.mp ho
  | _ => rfl

/-- Counters are conserved. While nobody edits the counters of a table by hand, buffers allocated
less buffers freed and reclaimed have moved since the last reset as the number of buffers has, in
words that wrap, counting an index entry once its allocation has counted it and until its removal
has been counted. As long as no counter has wrapped since, the number of live buffers they show is
that difference, or zero when it is negative. Without any reset this is the size of the index when
no call is under way, and exceeds it by what waiting teardowns have released when every call under
way is to be given a lock next. -/
theorem counters_follow_buffers (hr : (withTables limits).run? h = some s)
    (hcount : ∀ e ∈ h, ∀ which amount, e.2 ≠ .count t which amount) :
    (2 ^ 64 : Int) ∣ ((s.store.countersOf t).allocations.toNat -
        (s.store.countersOf t).frees.toNat - (s.store.countersOf t).buffersReclaimed.toNat) -
      sinceReset (·.standing t) t (withTables limits) s h ∧
    ((∀ passage, sinceReset (·.counted t passage) t (withTables limits) s h < 2 ^ 64) →
      ((s.store.countersOf t).live : Int) =
        max 0 (sinceReset (·.standing t) t (withTables limits) s h) ∧
      ((∀ e ∈ h, e.2 ≠ .resetCounters t) →
        (s.Idle → (s.store.countersOf t).live = (s.store.indexOf t).size) ∧
        ((∀ i, s.InFlight i → (s.wants i).isSome) → ((s.store.countersOf t).live : Int) =
          (s.store.indexOf t).size + s.total (Job.releasedWaiting t)))) := by
  have hs : Reachable limits s := ⟨h, hr⟩
  have hfollows := (follows_withTables limits t).run hr hcount
  obtain ⟨a, ha, hallocations⟩ := hfollows .inserted
  obtain ⟨f, hf, hfrees⟩ := hfollows .freed
  obtain ⟨c, hc, hreclaimed⟩ := hfollows .reclaimed
  have hallocations : (s.store.countersOf t).allocations.toNat = a % 2 ^ 64 := by
    rw [show (s.store.countersOf t).allocations = .ofNat a from hallocations, UInt64.toNat_ofNat']
  have hfrees : (s.store.countersOf t).frees.toNat = f % 2 ^ 64 := by
    rw [show (s.store.countersOf t).frees = .ofNat f from hfrees, UInt64.toNat_ofNat']
  have hreclaimed : (s.store.countersOf t).buffersReclaimed.toNat = c % 2 ^ 64 := by
    rw [show (s.store.countersOf t).buffersReclaimed = .ofNat c from hreclaimed,
      UInt64.toNat_ofNat']
  have hstanding : sinceReset (·.standing t) t (withTables limits) s h = a - f - c := by
    have hnow := hs.counted_eq_standing t
    unfold sinceReset
    cases hl : (withTables limits).lastReset t h with
    | none =>
      simp only [hl, Option.map_none, Option.getD_none] at ha hf hc ⊢
      omega
    | some r =>
      have hthen := (Reachable.lastReset ⟨[], rfl⟩ hr hl).counted_eq_standing t
      simp only [hl, Option.map_some, Option.getD_some] at ha hf hc ⊢
      omega
  refine ⟨by rw [hstanding]; omega, fun hfit ↦ ?_⟩
  have hlive : ((s.store.countersOf t).live : Int) =
      max 0 (sinceReset (·.standing t) t (withTables limits) s h) := by
    have hai := hfit .inserted
    have hfi := hfit .freed
    have hci := hfit .reclaimed
    simp only [sinceReset, ha, hf, hc] at hai hfi hci
    rw [hstanding, Counters.live, hallocations, hfrees, hreclaimed]
    omega
  refine ⟨hlive, fun hnone ↦ ?_⟩
  have hwaiting (hwait : ∀ i, s.InFlight i → (s.wants i).isSome) :
      ((s.store.countersOf t).live : Int) =
        (s.store.indexOf t).size + s.total (Job.releasedWaiting t) := by
    have hnonneg : 0 ≤ s.total (Job.releasedWaiting t) := total_nonneg fun job ↦ by
      unfold Job.releasedWaiting
      split
      · split <;> omega
      · omega
    rw [hlive, sinceReset, lastReset_eq_none hnone, standing_of_waiting hwait]
    simp only [Option.map_none, Option.getD_none]
    omega
  refine ⟨fun hidle ↦ ?_, hwaiting⟩
  have hsize := hwaiting fun i hi ↦ absurd hi (hidle i)
  rw [hidle.total_released] at hsize
  omega

/-- A teardown has released the first of two buffers and waits for a reader of the second. -/
def waitingTeardown : History :=
  .allocated ⟨7⟩ 4 4 ++ .call (.allocate 0 0 4 4) 2 14 ++
    .call (.lookup 0 ⟨⟨7⟩, ⟨1⟩⟩ .shared) 3 5 ++ .call (.teardown 0 0) 4 10

/-- The counters still show both buffers, and the index has one. -/
theorem counters_lag_behind : ∃ s, (withTables [{}]).run? waitingTeardown = some s ∧
    ((s.store.countersOf 0).live : Int) = (s.store.indexOf 0).size + 1 := by
  have hrun : ((withTables [{}]).run? waitingTeardown).map (fun s ↦
      (s.calls.toList.all (fun call ↦ call.job.outcome?.isSome || call.job.wants.isSome),
        s.counted 0 .inserted, s.counted 0 .freed, s.counted 0 .reclaimed,
        s.total (Job.releasedWaiting 0))) = some (true, 2, 0, 0, 1) := by
    decide +kernel
  have huntended : ∀ e ∈ waitingTeardown, e.2.isTending = false := by decide +kernel
  have hreset : ∀ e ∈ waitingTeardown, e.2 ≠ .resetCounters 0 := fun e he hk ↦ by
    simpa [hk, Action.isTending] using huntended e he
  obtain ⟨s, hs, h⟩ := Option.map_eq_some_iff.mp hrun
  simp only [Prod.mk.injEq] at h
  obtain ⟨hrest, hinserted, hfreed, hreclaimed, hreleased⟩ := h
  have hnone : (withTables [{}]).lastReset 0 waitingTeardown = none :=
    lastReset_eq_none hreset
  have hcount : ∀ e ∈ waitingTeardown, ∀ which amount, e.2 ≠ .count 0 which amount :=
    fun e he which amount hk ↦ by simpa [hk, Action.isTending] using huntended e he
  obtain ⟨-, hlive⟩ := counters_follow_buffers hs hcount
  obtain ⟨-, hwithout⟩ := hlive fun passage ↦ by
    cases passage <;> simp [sinceReset, hnone, hinserted, hfreed, hreclaimed]
  refine ⟨s, hs, ?_⟩
  rw [(hwithout hreset).2, hreleased]
  rintro i ⟨job, hj, hunended⟩
  obtain ⟨call, hc, rfl⟩ := job?_eq_some.mp hj
  have hcall := List.all_eq_true.mp hrest call (Array.mem_toList_iff.mpr (Array.mem_of_getElem? hc))
  simpa [Service.wants, hc, hunended] using hcall

end Service

end SessionBuffers
