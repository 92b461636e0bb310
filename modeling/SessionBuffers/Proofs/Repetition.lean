import SessionBuffers.Proofs.Closure
import SessionBuffers.Proofs.Conservation
import SessionBuffers.Proofs.Sweeping

/-!
# Teardowns of one registry

Any number of calls may tear a registry down at once. While nothing is recorded in its roster, the
first of them to get its locks takes out all there is, and leaves the roster closed and empty; the
others find it so and change nothing (`Led`). So the numbers they tell add up to what has been
taken out, and the end of the session is counted once, unless it had been before.
-/

namespace SessionBuffers

/-! ### Spent rosters -/

/-- The roster of a registry that has been torn down, with nothing recorded in it since. -/
def Roster.spent : Roster := { closed := true }

namespace Roster

@[simp] theorem toList_spent : spent.toList = [] := by simp [spent, toList]

@[simp] theorem closed_spent : spent.closed = true := rfl

@[simp] theorem close_spent : spent.close = spent := rfl

@[simp] theorem drained_spent : spent.drained = spent := rfl

@[simp] theorem remove_spent (key : Key) : spent.remove key = spent := by simp [spent, remove]

theorem drained_of_closed {x : Roster} (h : x.closed = true) : x.drained = spent := by
  simp [drained, spent, h]

end Roster

/-- A spent roster stays so unless a key is recorded. -/
theorem Instr.onRoster_spent {σ : Type} {instr : Instr σ} {r : RegistryRef}
    (h : ∀ key next, instr ≠ .add r key next) : instr.onRoster r .spent = .spent := by
  cases instr with
  | add q key next =>
    refine if_neg ?_
    rintro rfl
    exact h key next rfl
  | _ => simp [onRoster]

namespace Job

/-- The key that the next step of a job records in the roster of a registry. -/
def records? (r : RegistryRef) (job : Job) : Option Key :=
  match job.progress with
  | .next (.add q key _) => if q = r then some key else none
  | _ => none

/-- Whether a job is about to get the second lock of a teardown of a registry. -/
def entersTeardown (r : RegistryRef) : Job → Bool
  | tearingDown d .lockTable => d.registry == r
  | _ => false

/-- The buffer that a job is about to take out for a teardown of a registry. -/
def reclaims? (r : RegistryRef) (i : CallRef) : Job → Option Mark
  | tearingDown d (.erase key b _) =>
    if d.registry = r then some ⟨i, .reclaimed, d.table, ⟨key, b⟩⟩ else none
  | _ => none

/-- How many buffers a job has taken out for a teardown of a registry. -/
def takenFor (r : RegistryRef) : Job → Int
  | tearingDown d phase => if d.registry = r then phase.taken else 0
  | _ => 0

/-- The number that a teardown of a registry has told. -/
def told (r : RegistryRef) : Job → Int
  | tearingDown d (.ended (.number n)) => if d.registry = r then n else 0
  | _ => 0

variable {supply : Supply} {i : CallRef} {s s' : Store} {job next : Job} {instr : Instr Job}
  {r : RegistryRef}

theorem SameTask.exists_tearingDown {d : Teardown} {phase : Teardown.Phase}
    (h : job.SameTask (tearingDown d phase)) : ∃ before, job = tearingDown d before := by
  cases job with
  | tearingDown e before =>
    cases h
    exact ⟨before, rfl⟩
  | _ => cases h

theorem not_add_of_records? (hn : job.progress = .next instr) (h : job.records? r = none)
    (key : Key) (next : Job) : instr ≠ .add r key next := by
  rintro rfl
  simp [records?, hn] at h

theorem entersTeardown_iff :
    job.entersTeardown r = true ↔ ∃ d, job = .tearingDown d .lockTable ∧ d.registry = r := by
  unfold entersTeardown
  split <;> simp_all

theorem told_of_outcome? {o : Outcome} (h : job.outcome? = some o) :
    job.told r = job.takenFor r := by
  rw [outcome?_eq_some] at h
  cases job with
  | tearingDown d phase =>
    cases phase <;> cases h
    cases o <;> simp [told, takenFor, Teardown.Phase.taken]
  | _ => rfl

theorem takenFor_step (hn : job.progress = .next instr)
    (hr : instr.run supply i s = some (next, s')) :
    next.takenFor r = job.takenFor r + (job.reclaims? r i).toList.length := by
  cases job with
  | tearingDown d phase =>
    obtain ⟨step, hp, rfl⟩ := Progress.map_eq_next.mp hn
    obtain ⟨last, hrun, rfl⟩ := Instr.run_map_eq_some.mp hr
    cases phase with
    | erase key b w =>
      cases hp
      obtain ⟨-, rfl, -⟩ := Instr.run_erase.mp hrun
      by_cases hd : d.registry = r <;> simp [takenFor, reclaims?, Teardown.Phase.taken, hd]
    | _ =>
      have hsame := Instr.Always.of_run (Teardown.taken_kept rfl hp) hrun
      simp [takenFor, reclaims?, hsame]
  | _ =>
    obtain ⟨step, -, rfl⟩ := Progress.map_eq_next.mp hn
    obtain ⟨last, -, rfl⟩ := Instr.run_map_eq_some.mp hr
    rfl

end Job

/-! ### Teardowns that find nothing -/

/-- Nothing that a teardown changes has been changed: no index, no roster, no content, and no count
of the buffers taken out. -/
structure Store.Unmoved (s s' : Store) : Prop where
  index : ∀ t, s'.indexOf t = s.indexOf t
  roster : ∀ r, s'.rosterOf r = s.rosterOf r
  content : ∀ b, s.Has (.content b) → s'.contentOf b = s.contentOf b
  reclaimed : ∀ t, (s'.countersOf t).buffersReclaimed = (s.countersOf t).buffersReclaimed

namespace Teardown

/-- Where a teardown stands that has found nothing, and will find nothing in this roster once it has
its locks. -/
def Phase.Vain (x : Roster) : Phase → Prop
  | finish _ | lockRegistry | lockTable => True
  | close => x = .spent
  | drain first => first = false ∧ x = .spent
  | unlockRegistry w | unlockTable w | countReleased w | report w => w = .start false []
  | ended o => o = .number 0
  | _ => False

/-- Where a teardown stands that has its locks and is about to empty this roster. -/
def Phase.Spends (x : Roster) : Phase → Prop
  | close => True
  | drain _ => x.closed = true
  | _ => False

variable {d : Teardown} {supply : Supply} {i : CallRef} {s s' : Store} {phase next : Phase}
  {instr : Instr Phase} {x y : Roster}

theorem Phase.Spends.mem_held (h : phase.Spends x) :
    (.registry d.registry, .exclusive) ∈ d.held phase := by
  cases phase with
  | close | drain first => simp [held]
  | _ => exact h.elim

theorem Phase.Vain.congr (h : phase.Vain x)
    (hr : (.registry d.registry, .exclusive) ∈ d.held phase → y = x) : phase.Vain y := by
  cases phase with
  | close | drain first =>
    rw [hr (by simp [held])]
    exact h
  | _ => exact h

/-- A teardown that gets its locks when the roster is spent finds nothing. -/
theorem Phase.Vain.step (h : phase.Vain (s.rosterOf d.registry))
    (hlock : phase = .lockTable → s.rosterOf d.registry = .spent)
    (hp : d.progress phase = .next instr) (hr : instr.run supply i s = some (next, s')) :
    next.Vain (s'.rosterOf d.registry) := by
  have hroster := (Instr.changes_of_run hr).roster d.registry
  cases phase with
  | finish c =>
    cases hp
    obtain ⟨x, -, ⟨-, rfl, -⟩ | ⟨-, rfl, -⟩⟩ := Instr.run_finish.mp hr
    · rfl
    · trivial
  | lockRegistry =>
    cases hp
    obtain ⟨-, l, -, rfl, -⟩ := Instr.run_acquire.mp hr
    trivial
  | lockTable =>
    cases hp
    obtain ⟨-, l, -, rfl, -⟩ := Instr.run_acquire.mp hr
    exact hroster.trans (hlock rfl)
  | close =>
    cases hp
    obtain ⟨-, rfl, -⟩ := Instr.run_close.mp hr
    rw [Phase.Vain] at h
    rw [hroster, h]
    simp [Vain, Instr.onRoster]
  | drain first =>
    cases hp
    obtain ⟨-, rfl, -⟩ := Instr.run_drain.mp hr
    obtain ⟨rfl, h⟩ := h
    rw [h, Roster.toList_spent]
    rfl
  | unlockRegistry w | unlockTable w =>
    cases hp
    obtain ⟨-, rfl, -⟩ := Instr.run_release.mp hr
    exact h
  | countReleased w =>
    cases hp
    obtain ⟨-, rfl, -⟩ := Instr.run_count.mp hr
    obtain rfl := h
    rfl
  | report w =>
    cases hp
    obtain ⟨rfl, -⟩ := Instr.run_log.mp hr
    obtain rfl := h
    rfl
  | ended o => cases hp
  | _ => exact h.elim

theorem Phase.Vain.unmoved (h : phase.Vain (s.rosterOf d.registry))
    (hp : d.progress phase = .next instr) (hr : instr.run supply i s = some (next, s')) :
    s.Unmoved s' := by
  have hc := Instr.changes_of_run hr
  have hadds (t : TableRef) : instr.adds t .buffersReclaimed = 0 := by
    cases phase with
    | ended o => cases hp
    | countReleased w =>
      cases hp
      obtain rfl := h
      exact ite_self _
    | close | drain first | finish c | lockRegistry | lockTable | unlockRegistry w | unlockTable w
    | report w =>
      cases hp
      rfl
    | _ => exact h.elim
  have hon : (∀ t index, instr.onIndex t index = index) ∧
      (∀ r, instr.onRoster r (s.rosterOf r) = s.rosterOf r) ∧
      ∀ b content, instr.onContent b content = content := by
    cases phase with
    | ended o => cases hp
    | close =>
      cases hp
      refine ⟨fun _ _ ↦ rfl, fun r ↦ ?_, fun _ _ ↦ rfl⟩
      rw [Instr.onRoster]
      split
      · next he =>
        subst he
        rw [show s.rosterOf d.registry = .spent from h, Roster.close_spent]
      · rfl
    | drain first =>
      cases hp
      refine ⟨fun _ _ ↦ rfl, fun r ↦ ?_, fun _ _ ↦ rfl⟩
      rw [Instr.onRoster]
      split
      · next he =>
        subst he
        rw [h.2, Roster.drained_spent]
      · rfl
    | finish c | lockRegistry | lockTable | unlockRegistry w | unlockTable w | countReleased w
    | report w =>
      obtain ⟨hindex, -, hroster, hcontent⟩ := Instr.kept_of_isStill (show instr.isStill = true by
        cases hp
        rfl)
      exact ⟨hindex, fun r ↦ hroster r _, hcontent⟩
    | _ => exact h.elim
  refine ⟨fun t ↦ ?_, fun r ↦ ?_, fun b hb ↦ ?_, fun t ↦ ?_⟩
  · rw [hc.index, hon.1]
  · rw [hc.roster, hon.2.1]
  · rw [hc.content b hb, hon.2.2]
  · have hcount := Instr.counters_of_run hr t .buffersReclaimed
    rwa [hadds, UInt64.add_zero] at hcount

/-- A teardown that finds nothing waits for nothing but its registry and its table. -/
theorem Phase.Vain.wants_own {w : LockName × Mode} (h : phase.Vain x)
    (hw : (Job.tearingDown d phase).wants = some w) :
    w = (.registry d.registry, .exclusive) ∨ w = (.table d.table, .exclusive) := by
  cases phase with
  | lockRegistry =>
    cases hw
    exact .inl rfl
  | lockTable =>
    cases hw
    exact .inr rfl
  | lockContent key b sweep => exact h.elim
  | _ => cases hw

/-- A teardown that has its locks waits for nothing but contents. -/
theorem Follows.wants_content {l : Store} {ms : List Mark} {w : LockName × Mode}
    (h : d.Follows i l s ms phase) (hw : (Job.tearingDown d phase).wants = some w) :
    ∃ b, w = (.content b, .exclusive) := by
  cases phase with
  | finish c | lockRegistry | lockTable => exact h.elim
  | lockContent key b sweep =>
    cases hw
    exact ⟨b, rfl⟩
  | _ => cases hw

end Teardown

namespace Service

variable {limits : List Limits} {supply : Supply} {s₀ s s' u : Service} {action : Action}
  {h h₀ : History} {i : CallRef} {r : RegistryRef} {t : TableRef} {first : Option CallRef}
  {d : Teardown}

/-- The keys recorded in the roster of a registry on the way, in order. -/
def recordings (s : Service) (r : RegistryRef) (h : History) : List Key :=
  s.gathered (fun _ job ↦ job.records? r) h

/-- The teardowns of a registry that get their locks on the way, in order. -/
def entrants (s : Service) (r : RegistryRef) (h : History) : List CallRef :=
  s.gathered (fun i job ↦ if job.entersTeardown r then some i else none) h

/-- The buffers that teardowns of a registry take out on the way, in order. -/
def reclaimings (s : Service) (r : RegistryRef) (h : History) : List Mark :=
  s.gathered (fun i job ↦ job.reclaims? r i) h

/-! ### One teardown leads -/

/-- How the teardowns of a registry stand that have been made since `s₀`, when the one to get its
locks first, if any has, is `first`: all others find nothing, and so does whoever comes. -/
structure Led (s s₀ : Service) (r : RegistryRef) (first : Option CallRef) : Prop where
  spent : ∀ i, first = some i → s.store.rosterOf r = .spent ∨
    ∃ d phase, s.job? i = some (.tearingDown d phase) ∧ d.registry = r ∧
      phase.Spends (s.store.rosterOf r)
  others : ∀ i d phase, s.job? i = some (.tearingDown d phase) → d.registry = r →
    first ≠ some i → phase.Vain (s.store.rosterOf r) ∨
      s₀.job? i = some (.tearingDown d phase) ∧ ∃ o, phase = .ended o

theorem Settled.led (hs : s.Settled r) : s.Led s r none where
  spent i he := by cases he
  others i d phase hj hd _ := by
    obtain ⟨o, ho⟩ := Option.isSome_iff_exists.mp (hs i _ hj (by simp [Job.tearsDown, hd]))
    rw [Job.outcome?_eq_some] at ho
    refine .inr ⟨hj, ?_⟩
    cases phase <;> cases ho
    exact ⟨o, rfl⟩

/-- A spent roster stays so while nothing is recorded. -/
private theorem spent_kept (hd : s.Does supply action s')
    (hquiet : s.ofStep (fun _ job ↦ job.records? r) action = none)
    (hspent : s.store.rosterOf r = .spent) : s'.store.rosterOf r = .spent := by
  obtain ⟨i, job, instr, next, rfl, hj, hn, hr, -⟩ | hne := hd.step_or
  · rw [ofStep_step hj] at hquiet
    rw [(Instr.changes_of_run hr).roster, hspent]
    exact Instr.onRoster_spent (Job.not_add_of_records? hn hquiet)
  · rw [(hd.views_kept hne).2, hspent]

/-- A call that has a registry to itself keeps its roster while it makes no step. -/
private theorem roster_kept_of_held {job : Job} (hs : s.Sound) (hd : s.Does supply action s')
    (hj : s.job? i = some job) (hne : action ≠ .step i)
    (hh : (.registry r, .exclusive) ∈ job.held) : s'.store.rosterOf r = s.store.rosterOf r :=
  hs.locked.roster_kept hd (hs.locked.holds_of_held hj (by simp) hh) hne

/-- Once a teardown has its locks, whoever is next finds the roster spent. -/
private theorem Led.spent_of_does (hl : s.Led s₀ r first) (hs : s.Sound)
    (hd : s.Does supply action s')
    (hquiet : s.ofStep (fun _ job ↦ job.records? r) action = none) (hfirst : first = some i) :
    s'.store.rosterOf r = .spent ∨
      ∃ d phase, s'.job? i = some (.tearingDown d phase) ∧ d.registry = r ∧
        phase.Spends (s'.store.rosterOf r) := by
  obtain hspent | ⟨d, phase, hj, rfl, hphase⟩ := hl.spent i hfirst
  · exact .inl (spent_kept hd hquiet hspent)
  · by_cases hstep : action = .step i
    · subst hstep
      obtain ⟨instr, x, hp, hx, hj'⟩ := hd.teardown_step hj
      have hroster := (Instr.changes_of_run hx).roster d.registry
      cases phase with
      | close =>
        cases hp
        obtain ⟨-, rfl, -⟩ := Instr.run_close.mp hx
        rw [Instr.onRoster, if_pos rfl] at hroster
        exact .inr ⟨d, _, hj', rfl, congrArg Roster.closed hroster⟩
      | drain b =>
        cases hp
        rw [Instr.onRoster, if_pos rfl, Roster.drained_of_closed hphase] at hroster
        exact .inl hroster
      | _ => exact hphase.elim
    · rw [roster_kept_of_held hs hd hj hstep hphase.mem_held]
      exact .inr ⟨d, phase, hd.job_kept hj hstep, rfl, hphase⟩

/-- Nobody else gets the locks of a registry before the first teardown has emptied it. -/
private theorem Led.spent_of_lockTable (hl : s.Led s₀ d.registry first) (hs : s.Sound)
    {j : CallRef} (hfirst : first = some j) (hne : j ≠ i)
    (hj : s.job? i = some (.tearingDown d .lockTable)) :
    s.store.rosterOf d.registry = .spent := by
  obtain hspent | ⟨e, phase, hjob, he, hphase⟩ := hl.spent j hfirst
  · exact hspent
  · have hheld : (.registry d.registry, .exclusive) ∈ (Job.tearingDown e phase).held := by
      rw [← he]
      exact hphase.mem_held
    have hi : s.Holds i (.registry d.registry) .exclusive :=
      hs.locked.holds_of_held hj (by simp) (by simp [Job.held, Teardown.held])
    exact absurd (hs.locked.unique hi (hs.locked.holds_of_held hjob (by simp) hheld)).1 hne

/-- The first teardown to get its locks keeps the lead, and all others find nothing. -/
theorem Led.of_does (hl : s.Led s₀ r first) (hs : s.Sound) (hd : s.Does supply action s')
    (hquiet : s.ofStep (fun _ job ↦ job.records? r) action = none) :
    s'.Led s₀ r (first.or
      (s.ofStep (fun i job ↦ if job.entersTeardown r then some i else none) action)) where
  spent i he := by
    cases first with
    | some j => exact hl.spent_of_does hs hd hquiet he
    | none =>
      obtain ⟨j, job, rfl, hj, hin⟩ := ofStep_eq_some.mp he
      obtain ⟨henters, ⟨⟩⟩ := Option.ite_none_right_eq_some.mp hin
      obtain ⟨d, rfl, hd'⟩ := Job.entersTeardown_iff.mp henters
      obtain ⟨_, next, ⟨⟩, hr, hj'⟩ := hd.teardown_step hj
      obtain ⟨-, l, -, rfl, -⟩ := Instr.run_acquire.mp hr
      exact .inr ⟨d, .close, hj', hd', trivial⟩
  others i d phase hj hreg hne := by
    have hfirst : first ≠ some i := by
      rintro rfl
      exact hne rfl
    obtain ⟨hj, hstep⟩ | ⟨request, rfl, hjob, -⟩ | ⟨job, instr, rfl, hj, hn, hr⟩ := hd.job_cases hj
    · obtain hvain | hended := hl.others i d phase hj hreg hfirst
      · refine .inl (hvain.congr (d := d) fun hh ↦ ?_)
        exact roster_kept_of_held hs hd hj hstep (by rwa [hreg] at hh)
      · exact .inr hended
    · cases Job.ofRequest?_eq_some.mp hjob <;> exact .inl trivial
    · obtain ⟨before, rfl⟩ := (Job.sameTask_of_run hn hr).exists_tearingDown
      obtain ⟨step, hp, rfl⟩ := Progress.map_eq_next.mp hn
      obtain ⟨_, hrun, ⟨⟩⟩ := Instr.run_map_eq_some.mp hr
      subst hreg
      obtain hvain | ⟨-, o, rfl⟩ := hl.others i d before hj rfl hfirst
      · refine .inl (hvain.step (fun hlock ↦ ?_) hp hrun)
        subst hlock
        cases first with
        | none =>
          rw [ofStep_step hj, if_pos (Job.entersTeardown_iff.mpr ⟨d, rfl, rfl⟩)] at hne
          exact absurd rfl hne
        | some j =>
          refine hl.spent_of_lockTable hs rfl ?_ hj
          rintro rfl
          exact hfirst rfl
      · cases hp

/-- The teardowns of a registry on the way, while nothing is recorded in its roster. -/
theorem Led.of_run (hl : s.Led s₀ r first) (hs : Reachable limits s) (hr : s.run? h = some s')
    (hquiet : s.recordings r h = []) : s'.Led s₀ r (first.or (s.entrants r h).head?) := by
  induction h generalizing s first with
  | nil =>
    cases hr
    simpa [entrants, gathered] using hl
  | cons e h ih =>
    obtain ⟨ha, v, hv, hr⟩ := run?_cons_eq_some.mp hr
    rw [recordings, gathered_cons hv, List.append_eq_nil_iff, Option.toList_eq_nil_iff] at hquiet
    have hl' := ih (hl.of_does hs.sound (does_of_act? hv) hquiet.1) (hs.act ha hv) hr hquiet.2
    rw [Option.or_assoc] at hl'
    rwa [entrants, gathered_cons hv, List.head?_append, Option.head?_toList]

/-! ### Whether calls end -/

/-- A call has ended, or wants a lock, or can make its next step. -/
private theorem Reachable.ended_or {job : Job} (hs : Reachable limits s)
    (hj : s.job? i = some job) :
    (∃ o, job.outcome? = some o ∧ s.outcome? i = some o) ∨
      (∃ w, job.wants = some w ∧ s.wants i = some w) ∨ ∀ supply, (s.step? supply i).isSome := by
  obtain ⟨call, hc, rfl⟩ := job?_eq_some.mp hj
  cases hp : call.job.progress with
  | ended o =>
    have ho : call.job.outcome? = some o := by simp [Job.outcome?, hp]
    exact .inl ⟨o, ho, (outcome?_of_job? hj).trans ho⟩
  | next instr =>
    cases hw : instr.wants with
    | none => exact .inr (.inr (hs.goes hj hp hw))
    | some w =>
      have hwants : call.job.wants = some w := by simp [Job.wants, hp, hw]
      exact .inr (.inl ⟨w, hwants, by simp [wants, hc, hwants]⟩)

/-- The first teardown to get its locks takes out what is listed and in the index by then. -/
private theorem first_result (hs : Reachable limits s₀) (hr : s₀.run? h = some s)
    (hfirst : (s₀.entrants r h).head? = some i) :
    ∃ before after u d, h = before ++ after ∧ s₀.run? before = some u ∧
      s₀.entrants r before = [i] ∧ u.job? i = some (.tearingDown d .close) ∧ d.registry = r ∧
      (s.outcome? i = some (.number (d.found u.store)) ∨
        (∃ b, s.wants i = some (.content b, .exclusive)) ∨
        ∀ supply, (s.step? supply i).isSome) := by
  obtain ⟨rest, hrest⟩ := List.head?_eq_some_iff.mp hfirst
  obtain ⟨before, supply, j, after, u, job, v, rfl, hb, hnone, hj, hin, ha, hv, hafter⟩ :=
    exists_of_gathered_eq (l := []) hr hrest
  obtain ⟨henters, ⟨⟩⟩ := Option.ite_none_right_eq_some.mp hin
  obtain ⟨d, rfl, hd⟩ := Job.entersTeardown_iff.mp henters
  have hdoes := does_of_act? hv
  obtain ⟨_, next, ⟨⟩, hrun, hclose⟩ := hdoes.teardown_step hj
  obtain ⟨-, l, -, rfl, -⟩ := Instr.run_acquire.mp hrun
  have hreach : Reachable limits v := (hs.run hb).act ha hv
  refine ⟨before ++ [(supply, .step i)], after, v, d, by simp,
    run?_append_eq_some.mpr ⟨u, hb, by simp [run?, ha, hv]⟩, ?_, hclose, hd, ?_⟩
  · rw [entrants, gathered_append hb, hnone, gathered_cons hv, ofStep_step hj, if_pos henters]
    rfl
  · obtain ⟨phase, hphase, hf⟩ := follows_of_close hreach hafter hclose
    obtain ⟨o, ho, hout⟩ | ⟨w, hw, hwants⟩ | hgoes := (hreach.run hafter).ended_or hphase
    · rw [(hf.of_ended ho).1] at hout
      exact .inl hout
    · obtain ⟨b, rfl⟩ := hf.wants_content hw
      exact .inr (.inl ⟨b, hwants⟩)
    · exact .inr (.inr hgoes)

section Others

variable {phase : Teardown.Phase} (hrest : s₀.Settled r) (hs : Reachable limits s₀)
  (hr : s₀.run? h = some s) (hquiet : s₀.recordings r h = []) (hnew : s₀.job? i = none)
  (hj : s.job? i = some (.tearingDown d phase)) (hd : d.registry = r)
  (hne : (s₀.entrants r h).head? ≠ some i)

include hrest hs hr hquiet hnew hj hd hne

/-- Whichever teardown is not the first to get its locks finds nothing. -/
private theorem Settled.vain : phase.Vain (s.store.rosterOf r) := by
  obtain hvain | ⟨hold, -⟩ := (hrest.led.of_run hs hr hquiet).others i d phase hj hd hne
  · exact hvain
  · cases hnew.symm.trans hold

/-- Whichever teardown is not the first to get its locks tells that it has taken out nothing. -/
private theorem Settled.other_result :
    s.outcome? i = some (.number 0) ∨ s.wants i = some (.registry r, .exclusive) ∨
      s.wants i = some (.table d.table, .exclusive) ∨ ∀ supply, (s.step? supply i).isSome := by
  have hvain := hrest.vain hs hr hquiet hnew hj hd hne
  obtain ⟨o, ho, hout⟩ | ⟨w, hw, hwants⟩ | hgoes := (hs.run hr).ended_or hj
  · rw [Job.outcome?_eq_some] at ho
    cases phase <;> cases ho
    obtain rfl := hvain
    exact .inl hout
  · obtain rfl | rfl := hvain.wants_own hw
    · exact .inr (.inl (by rw [hwants, hd]))
    · exact .inr (.inr (.inl hwants))
  · exact .inr (.inr (.inr hgoes))

/-- Whichever teardown is not the first to get its locks changes nothing on its way. -/
private theorem Settled.other_unmoved {before after : History} {v : Service}
    (hh : h = before ++ (supply, .step i) :: after) (hb : s₀.run? before = some u)
    (hv : u.act? supply (.step i) = some v) : u.store.Unmoved v.store := by
  subst hh
  obtain ⟨w, hw, hrun⟩ := run?_append_eq_some.mp hr
  cases hb.symm.trans hw
  rw [recordings, gathered_append hb, List.append_eq_nil_iff] at hquiet
  have hne' : (s₀.entrants r before).head? ≠ some i := by
    intro he
    rw [entrants, gathered_append hb, List.head?_append, ← entrants, he] at hne
    exact hne rfl
  have hdoes := does_of_act? hv
  obtain ⟨call, -, -, hcall, -⟩ := hdoes.calls_step
  obtain ⟨last, hlast, hsame⟩ := sameTask_of_run (job?_eq_some.mpr ⟨call, hcall, rfl⟩) hrun
  cases hj.symm.trans hlast
  obtain ⟨now, hnow⟩ := hsame.exists_tearingDown
  have hju : u.job? i = some (.tearingDown d now) := job?_eq_some.mpr ⟨call, hcall, hnow⟩
  obtain ⟨instr, next, hp, hstep, -⟩ := hdoes.teardown_step hju
  subst hd
  exact (hrest.vain hs hb hquiet.1 hnew hju rfl hne').unmoved hp hstep

end Others

/-! ### What is counted -/

/-- What the teardowns of a registry have told grows by what they have taken out. -/
private theorem told_of_run (hr : s₀.run? h = some s) (hrest : s₀.Settled r) (hdone : s.Settled r) :
    s.total (Job.told r) = s₀.total (Job.told r) + (s₀.reclaimings r h).length := by
  have hsame {u : Service} (hu : u.Settled r) :
      u.total (Job.told r) = u.total (Job.takenFor r) := by
    refine hu.total_congr (fun job o ho ↦ Job.told_of_outcome? ho) fun job hjob ↦ ?_
    cases job with
    | tearingDown d phase =>
      have hd : d.registry ≠ r := by simpa [Job.tearsDown] using hjob
      rw [Job.takenFor, if_neg hd, Job.told.eq_def]
      split <;> simp_all
    | _ => rfl
  rw [hsame hrest, hsame hdone, ← List.countP_true]
  refine measure_of_run (m := fun u ↦ u.total (Job.takenFor r))
    (fun {supply action u v} hact ↦ ?_) hr
  have hd := does_of_act? hact
  rw [List.countP_true]
  obtain ⟨i, job, instr, next, rfl, hj, hn, hrun, hj'⟩ | hne := hd.step_or
  · rw [hd.total_step hj hj', ofStep_step hj, Job.takenFor_step hn hrun]
    omega
  · rw [ofStep_of_ne hne, hd.total_rest hne]
    · simp
    · intro request _ job hjob
      cases Job.ofRequest?_eq_some.mp hjob <;> simp [Job.takenFor, Teardown.Phase.taken]

/-- What teardowns of a registry take out is marked as taken out. -/
private theorem reclaimings_sublist (hr : s.run? h = some s') (r : RegistryRef) :
    (s.reclaimings r h).Sublist ((s.marks h).filter fun m ↦ m.passage != .inserted) := by
  induction h generalizing s with
  | nil => simp [reclaimings, gathered]
  | cons e h ih =>
    obtain ⟨supply, action⟩ := e
    obtain ⟨-, v, hv, hr⟩ := run?_cons_eq_some.mp hr
    rw [reclaimings, gathered_cons hv, marks_cons hv, List.filter_append]
    refine List.Sublist.append ?_ (ih hr)
    cases hseen : s.ofStep (fun i job ↦ job.reclaims? r i) action with
    | none => simp
    | some m =>
      obtain ⟨i, job, rfl, hj, hm⟩ := ofStep_eq_some.mp hseen
      unfold Job.reclaims? at hm
      split at hm
      · obtain ⟨-, ⟨⟩⟩ := Option.ite_none_right_eq_some.mp hm
        simp [mark?, hj, Job.mark?]
      · cases hm

/-- No buffer is taken out twice. -/
private theorem nodup_reclaimings (hs : (withTables limits).run? h₀ = some s₀)
    (hr : s₀.run? h = some s) (r : RegistryRef) :
    ((s₀.reclaimings r h).map fun m ↦ m.handle.storage).Nodup := by
  have hreach : Reachable limits s₀ := ⟨h₀, hs⟩
  have hmarked := (Reachable.marked hs).run hreach.sound hr
  refine hmarked.once.sublist ((reclaimings_sublist hr r).trans ?_ |>.map _)
  rw [List.filter_append]
  exact List.sublist_append_right ..

/-- A teardown that has ended has had its locks. -/
private theorem mem_entrants {phase : Teardown.Phase}
    (hj : s.job? i = some (.tearingDown d phase))
    (hphase : phase = .lockRegistry ∨ phase = .lockTable) (hr : s.run? h = some s')
    (hended : (s'.outcome? i).isSome) : i ∈ s.entrants d.registry h := by
  induction h generalizing s phase with
  | nil =>
    cases hr
    rw [outcome?_of_job? hj] at hended
    obtain rfl | rfl := hphase <;> cases hended
  | cons e h ih =>
    obtain ⟨supply, action⟩ := e
    obtain ⟨-, v, hv, hafter⟩ := run?_cons_eq_some.mp hr
    have hd := does_of_act? hv
    rw [entrants, gathered_cons hv, List.mem_append]
    by_cases hstep : action = .step i
    · subst hstep
      obtain ⟨_, next, hp, hrun, hj'⟩ := hd.teardown_step hj
      obtain rfl | rfl := hphase
      · cases hp
        obtain ⟨-, l, -, rfl, -⟩ := Instr.run_acquire.mp hrun
        exact .inr (ih hj' (.inr rfl) hafter)
      · rw [ofStep_step hj, if_pos (Job.entersTeardown_iff.mpr ⟨d, rfl, rfl⟩)]
        exact .inl (by simp)
    · exact .inr (ih (hd.job_kept hj hstep) hphase hafter)

/-- When a teardown is made on the way and has ended, some have had their locks. -/
private theorem entrants_ne_nil {supply : Supply} (hr : s₀.run? h = some s) (hdone : s.Settled r)
    (hin : (supply, .invoke (.teardown t r)) ∈ h) : s₀.entrants r h ≠ [] := by
  obtain ⟨before, after, rfl⟩ := List.append_of_mem hin
  obtain ⟨u, hb, hrun⟩ := run?_append_eq_some.mp hr
  obtain ⟨-, v, hv, hafter⟩ := run?_cons_eq_some.mp hrun
  obtain ⟨d, hd, hj⟩ : ∃ d, d.registry = r ∧
      v.job? u.calls.size = some (.tearingDown d .lockRegistry) := by
    cases does_of_act? hv with
    | invoke hjob =>
      cases Job.ofRequest?_eq_some.mp hjob
      exact ⟨⟨t, r, u.store.sessionOf r⟩, rfl, by simp [job?]⟩
    | tend hk ha => cases hk
  obtain ⟨last, hlast, hsame⟩ := sameTask_of_run hj hafter
  have hended : (s.outcome? u.calls.size).isSome := by
    rw [outcome?_of_job? hlast]
    exact hdone _ last hlast (by simpa [Job.tearsDown, hd] using hsame.same.2.1 r)
  have hmem := mem_entrants hj (.inl rfl) hafter hended
  rw [hd] at hmem
  rw [entrants, gathered_append hb, gathered_cons hv]
  exact List.ne_nil_of_mem (List.mem_append_right _ (List.mem_append_right _ hmem))

/-- A call that has ended makes no step. -/
private theorem job_of_run_of_ended {job : Job} {o : Outcome} (hj : s.job? i = some job)
    (ho : job.outcome? = some o) (hr : s.run? h = some s') : s'.job? i = some job := by
  refine run_induct (P := fun u ↦ u.job? i = some job) (fun u supply action v hu _ hact ↦ ?_) hj hr
  have hd := does_of_act? hact
  refine hd.job_kept hu ?_
  rintro rfl
  obtain ⟨instr, next, hn, -⟩ := hd.job_step hu
  simp [Job.outcome?, hn] at ho

/-- The ends of a session are counted at the tables that its registry is torn down through. -/
private theorem Settled.table_of_closure (hrest : s₀.Settled r) (hr : s₀.run? h = some s)
    (hall : ∀ i d phase, s₀.job? i = none → s.job? i = some (.tearingDown d phase) →
      d.registry = r → d.table = t)
    {c : TableRef × RegistryRef} (hc : c ∈ s₀.closures h) (hcr : c.2 = r) : c.1 = t := by
  obtain ⟨xs, ys, hxs⟩ := List.append_of_mem hc
  obtain ⟨before, supply, i, after, u, job, v, rfl, hb, -, hj, hcount, ha, hv, hafter⟩ :=
    exists_of_gathered_eq hr hxs
  obtain ⟨d, w, rfl, rfl⟩ : ∃ d w, job = .tearingDown d (.countClosed w) ∧
      c = (d.table, d.registry) := by
    unfold Job.closure? at hcount
    split at hcount
    · next d w =>
      cases hcount
      exact ⟨d, w, rfl, rfl⟩
    · cases hcount
  cases hold : s₀.job? i with
  | none =>
    obtain ⟨last, hlast, hsame⟩ := sameTask_of_run hj (run?_cons_eq_some.mpr ⟨ha, v, hv, hafter⟩)
    cases last with
    | tearingDown e phase =>
      cases hsame
      exact hall i d phase hold hlast hcr
    | _ => cases hsame
  | some job =>
    -- A call that was made before has ended before.
    obtain ⟨last, hlast, hsame⟩ := sameTask_of_run hold hb
    cases hj.symm.trans hlast
    obtain ⟨o, ho⟩ := Option.isSome_iff_exists.mp (hrest i job hold
      ((hsame.same.2.1 r).symm.trans (by simpa [Job.tearsDown] using hcr)))
    cases hj.symm.trans (job_of_run_of_ended hold ho hb)
    cases Job.outcome?_eq_some.mp ho

/-- A table at which all closings of a registry are counted counts those beside all others. -/
private theorem countP_closures_at {cs : List (TableRef × RegistryRef)}
    (h : ∀ c ∈ cs, c.2 = r → c.1 = t) :
    cs.countP (fun c ↦ c.1 = t) =
      cs.countP (fun c ↦ c.1 = t ∧ c.2 ≠ r) + cs.countP fun c ↦ c.2 = r := by
  induction cs with
  | nil => rfl
  | cons c cs ih =>
    have ih := ih fun c hc ↦ h c (by simp [hc])
    have hc := h c (by simp)
    by_cases hr : c.2 = r
    · simp [ih, hr, hc hr]
      omega
    · by_cases ht : c.1 = t
      · simp [ih, hr, ht]
        omega
      · simp [ih, hr, ht]

/-- When the teardowns made on the way have ended, the end of the session has been counted once,
unless the registry had been closed before. -/
private theorem Settled.countP_closures (hrest : s₀.Settled r) (hs : Reachable limits s₀)
    (hr : s₀.run? h = some s) (hquiet : s₀.recordings r h = []) (hdone : s.Settled r)
    (hsome : s₀.entrants r h ≠ []) :
    (s₀.closures h).countP (fun c ↦ c.2 = r) =
      if (s₀.store.rosterOf r).closed = true then 0 else 1 := by
  obtain ⟨i, hfirst⟩ := Option.isSome_iff_exists.mp (List.isSome_head?.mpr hsome)
  have hclosed : s.store.rosterOf r = .spent := by
    obtain hspent | ⟨d, phase, hj, hd, hphase⟩ :=
      (hrest.led.of_run hs hr hquiet).spent i (by simpa using hfirst)
    · exact hspent
    · have hended := hdone i _ hj (by simp [Job.tearsDown, hd])
      cases phase with
      | close | drain b => cases hended
      | _ => exact hphase.elim
  have hcount := Service.countP_closures hr r
  rw [hclosed, hrest.total_owedClosing, hdone.total_owedClosing] at hcount
  cases hbefore : (s₀.store.rosterOf r).closed <;> simp [hbefore] at hcount ⊢ <;> omega

/-- However many calls tear a registry down, and however they interleave, while nothing is recorded
in its roster: the first to get its locks takes out what is listed and in the index at that moment,
and tells how much that is; every other one tells that it has taken out nothing, and none of its
steps changes any index, roster or content, or the count of the buffers taken out. Each of them
ends, unless the locks it waits for are never given back; the first waits for nothing but contents
once it has its own. When they all have ended, the numbers they have told add up to the buffers that
they have taken out, each of them once; and the end of the session has been counted once, at the
table if they all went through one, unless the registry had been closed before. Over a whole run,
whatever tables a registry is torn down through and however it is used in between, the end of its
session is counted once at most. -/
theorem torn_down_however_often (hs : (withTables limits).run? h₀ = some s₀)
    (hr : s₀.run? h = some s) :
    (∀ r, s₀.Settled r → s₀.recordings r h = [] →
      (∀ i, (s₀.entrants r h).head? = some i →
        ∃ before after u d, h = before ++ after ∧ s₀.run? before = some u ∧
          s₀.entrants r before = [i] ∧ u.job? i = some (.tearingDown d .close) ∧
          d.registry = r ∧
          (s.outcome? i = some (.number (d.found u.store)) ∨
            (∃ b, s.wants i = some (.content b, .exclusive)) ∨
            ∀ supply, (s.step? supply i).isSome)) ∧
      (∀ i d phase, s₀.job? i = none → s.job? i = some (.tearingDown d phase) →
        d.registry = r → (s₀.entrants r h).head? ≠ some i →
        (s.outcome? i = some (.number 0) ∨ s.wants i = some (.registry r, .exclusive) ∨
          s.wants i = some (.table d.table, .exclusive) ∨
          ∀ supply, (s.step? supply i).isSome) ∧
        ∀ before supply after u v, h = before ++ (supply, .step i) :: after →
          s₀.run? before = some u → u.act? supply (.step i) = some v → u.store.Unmoved v.store) ∧
      (s.Settled r →
        s.total (Job.told r) = s₀.total (Job.told r) + (s₀.reclaimings r h).length ∧
        ((s₀.reclaimings r h).map fun m ↦ m.handle.storage).Nodup ∧
        (∀ supply t, (supply, .invoke (.teardown t r)) ∈ h → s₀.entrants r h ≠ []) ∧
        (s₀.entrants r h ≠ [] →
          (s₀.closures h).countP (fun c ↦ c.2 = r) =
            (if (s₀.store.rosterOf r).closed = true then 0 else 1) ∧
          ∀ t, (∀ i d phase, s₀.job? i = none → s.job? i = some (.tearingDown d phase) →
              d.registry = r → d.table = t) →
            (∀ e ∈ h, e.2 ≠ .resetCounters t) →
            (∀ e ∈ h, ∀ which amount, e.2 ≠ .count t which amount) →
            (s.store.countersOf t).sessionsClosed = (s₀.store.countersOf t).sessionsClosed +
              .ofNat ((s₀.closures h).countP fun c ↦ c.1 = t ∧ c.2 ≠ r) +
              if (s₀.store.rosterOf r).closed = true then 0 else 1))) ∧
    (∀ r, ((withTables limits).closures (h₀ ++ h)).countP (fun c ↦ c.2 = r) ≤ 1) ∧
    ∀ t, (∀ e ∈ h₀ ++ h, e.2 ≠ .resetCounters t) →
      (∀ e ∈ h₀ ++ h, ∀ which amount, e.2 ≠ .count t which amount) →
      (s.store.countersOf t).sessionsClosed =
        .ofNat (((withTables limits).closures (h₀ ++ h)).countP fun c ↦ c.1 = t) := by
  have hreach : Reachable limits s₀ := ⟨h₀, hs⟩
  have hwhole : (withTables limits).run? (h₀ ++ h) = some s :=
    run?_append_eq_some.mpr ⟨s₀, hs, hr⟩
  refine ⟨fun r hrest hquiet ↦ ⟨fun i ↦ first_result hreach hr,
    fun i d phase hnew hj hd hne ↦ ⟨hrest.other_result hreach hr hquiet hnew hj hd hne,
      fun before supply after u v ↦ hrest.other_unmoved hreach hr hquiet hnew hj hd hne⟩,
    fun hdone ↦ ⟨told_of_run hr hrest hdone, nodup_reclaimings hs hr r,
      fun supply t ↦ entrants_ne_nil hr hdone, fun hsome ↦ ?_⟩⟩, closures_le_one hwhole,
    fun t hreset hcount ↦ ?_⟩
  · have honce := hrest.countP_closures hreach hr hquiet hdone hsome
    refine ⟨honce, fun t hall hreset hcount ↦ ?_⟩
    rw [sessionsClosed_of_run hr hreset hcount,
      countP_closures_at fun c ↦ hrest.table_of_closure hr hall, honce, UInt64.ofNat_add,
      UInt64.add_assoc]
    split <;> rfl
  · rw [sessionsClosed_of_run hwhole hreset hcount, countersOf_withTables]
    exact UInt64.zero_add _

/-- Two buffers are allocated with a registry. -/
def aboutToTearDown : History := History.allocated ⟨7⟩ 4 4 ++ History.call (.allocate 0 0 4 4) 2 14

/-- A teardown gets its locks, and another one waits for them. The other one is done before the
first has counted anything. -/
def tornDownByTwo : History :=
  History.call (.teardown 0 0) 3 2 ++ History.call (.teardown 0 0) 4 0 ++
    List.replicate 13 (.addressable, .step 3) ++ [(.addressable, .step 4),
    (.addressable, .step 3)] ++ List.replicate 7 (.addressable, .step 4) ++
    List.replicate 3 (.addressable, .step 3)

/-- The first takes out both buffers and the other one nothing, and one end of a session is
counted. -/
theorem second_found_nothing : ∃ s₀ s, (withTables [{}]).run? aboutToTearDown = some s₀ ∧
    s₀.run? tornDownByTwo = some s ∧ s.outcome? 3 = some (.number 2) ∧
    s.outcome? 4 = some (.number 0) ∧ s.total (Job.told 0) = s₀.total (Job.told 0) + 2 ∧
    (s.store.countersOf 0).sessionsClosed = 1 := by
  have hrun : (((withTables [{}]).run? aboutToTearDown).bind fun s₀ ↦
      (s₀.run? tornDownByTwo).map fun s ↦
        ([s₀, s].map (fun s ↦ s.calls.toList.all fun call ↦ call.job.outcome?.isSome),
          (s₀.recordings 0 tornDownByTwo, (s₀.reclaimings 0 tornDownByTwo).length),
          ((withTables [{}]).closures (aboutToTearDown ++ tornDownByTwo)).countP fun c ↦ c.1 = 0,
          [s.outcome? 3, s.outcome? 4])) =
      some ([true, true], ([], 2), 1, [some (.number 2), some (.number 0)]) := by
    decide +kernel
  have huntended : ∀ e ∈ aboutToTearDown ++ tornDownByTwo, e.2.isTending = false := by
    decide +kernel
  obtain ⟨s₀, hs₀, hrun⟩ := Option.bind_eq_some_iff.mp hrun
  obtain ⟨s, hs, hrun⟩ := Option.map_eq_some_iff.mp hrun
  simp only [Prod.mk.injEq, List.map_cons, List.map_nil, List.cons.injEq, and_true] at hrun
  obtain ⟨⟨hended₀, hended⟩, ⟨hquiet, hlength⟩, hclosed, hthird, hfourth⟩ := hrun
  have hsettled {u : Service}
      (hu : (u.calls.toList.all fun call ↦ call.job.outcome?.isSome) = true) : u.Settled 0 := by
    intro i job hj _
    obtain ⟨o, ho, -⟩ := (idle_of_all hu).outcome? hj
    simp [ho]
  obtain ⟨hone, -, hcounted⟩ := torn_down_however_often hs₀ hs
  obtain ⟨-, -, htold⟩ := hone 0 (hsettled hended₀) hquiet
  refine ⟨s₀, s, hs₀, hs, hthird, hfourth, ?_, ?_⟩
  · rw [(htold (hsettled hended)).1, hlength]
    rfl
  · rw [hcounted 0 ?_ ?_, hclosed]
    · rfl
    · intro e he hk
      simpa [hk, Action.isTending] using huntended e he
    · intro e he which amount hk
      simpa [hk, Action.isTending] using huntended e he

end Service

end SessionBuffers
