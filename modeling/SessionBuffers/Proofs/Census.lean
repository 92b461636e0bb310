import SessionBuffers.Proofs.Ending

/-!
# Counting sessions

A table counts a session before the session is set up, and counts its end after the session has been
marked. When the table is used through its sessions only, its two counters of sessions are therefore
the number of its sessions, and of those that have ended, but for what calls under way have still to
set up or to count (`Service.Census`).
-/

namespace SessionBuffers

/-- Whether a teardown has marked its session, but has not counted its end yet. -/
def Teardown.Phase.isUncounted : Phase → Bool
  | finish _ | report _ | ended _ => false
  | _ => true

namespace Job

/-- How many sessions of a table a job has counted that are still to be set up. -/
def unopened (t : TableRef) : Job → Int
  | attaching a (.report _ _) | attaching a (.open _ _) => if a.purpose = .session t then 1 else 0
  | _ => 0

/-- How many sessions of a table a job has marked as ended without counting their end. -/
def unclosed (t : TableRef) : Job → Int
  | tearingDown d phase => if d.table = t ∧ phase.isUncounted = true then 1 else 0
  | _ => 0

variable {job : Job} {instr : Instr Job} {t : TableRef}

/-- Only an attachment counts a session. -/
theorem adds_sessionsOpened (hn : job.progress = .next instr) :
    instr.adds t .sessionsOpened = 0 ∨ ∃ a r, job = .attaching a (.count t r) := by
  cases instr with
  | count u which amount next =>
    by_cases h : u = t ∧ which = .sessionsOpened
    · obtain ⟨rfl, rfl⟩ := h
      exact .inr ((Job.origin hn).1 rfl)
    · exact .inl (if_neg h)
  | _ => exact .inl rfl

/-- Only a teardown counts the end of a session. -/
theorem adds_sessionsClosed (hn : job.progress = .next instr) :
    instr.adds t .sessionsClosed = 0 ∨
      ∃ d w, job = .tearingDown d (.countClosed w) ∧ d.table = t := by
  cases instr with
  | count u which amount next =>
    by_cases h : u = t ∧ which = .sessionsClosed
    · obtain ⟨rfl, rfl⟩ := h
      exact .inr ((Job.origin hn).2 rfl)
    · exact .inl (if_neg h)
  | _ => exact .inl rfl

end Job

/-- But for the steps that mark a session and count its end, what a teardown has still to count
stays. -/
theorem Teardown.isUncounted_kept {d : Teardown} {phase : Phase} {step : Instr Phase}
    (hf : ∀ c, phase ≠ .finish c) (hr : ∀ w, phase ≠ .countReleased w)
    (hc : ∀ w, phase ≠ .countClosed w) (hp : d.progress phase = .next step) :
    step.Always fun last ↦ last.isUncounted = phase.isUncounted := by
  have hresume (w : Sweep) : (Phase.resume w).isUncounted = true := by
    unfold Phase.resume
    split <;> rfl
  cases phase with
  | ended o => cases hp
  | finish c => exact absurd rfl (hf c)
  | countReleased w => exact absurd rfl (hr w)
  | countClosed w => exact absurd rfl (hc w)
  | find key w =>
    cases hp
    intro index
    dsimp only
    split <;> rfl
  | drain first =>
    cases hp
    exact fun keys ↦ hresume _
  | reportMissing key w | unlockContent key b w =>
    cases hp
    exact hresume _
  | _ =>
    cases hp
    simp [Instr.Always, Phase.isUncounted]

/-- A change of one element of an array changes a number of elements by what it does to this one. -/
private theorem countP_modify {xs : Array Session} {i : Nat} {x : Session} (f : Session → Session)
    (p : Session → Bool) (hx : xs[i]? = some x) :
    ((xs.modify i f).countP p : Int) = xs.countP p + ((p (f x)).toInt - (p x).toInt) := by
  obtain ⟨xs⟩ := xs
  simp only [List.getElem?_toArray, List.modify_toArray, List.countP_toArray] at hx ⊢
  induction xs generalizing i with
  | nil => cases hx
  | cons y xs ih =>
    cases i with
    | zero =>
      cases hx
      simp only [List.modify_zero_cons, List.countP_cons]
      cases p (f x) <;> cases p x <;> simp
    | succ i =>
      simp only [List.modify_succ_cons, List.countP_cons]
      have := ih (by simpa using hx)
      omega

namespace Service

variable {limits : List Limits} {supply : Supply} {s s' : Service} {action : Action} {h : History}
  {t : TableRef} {i : CallRef}

/-- How many sessions of a table have been set up. -/
def opened (s : Service) (t : TableRef) : Nat := s.store.sessions.countP fun x ↦ x.table == t

/-- How many sessions of a table have ended. -/
def finished (s : Service) (t : TableRef) : Nat :=
  s.store.sessions.countP fun x ↦ x.table == t && x.ended

/-- How a table's counters of sessions go with its sessions. -/
structure Census (t : TableRef) (s : Service) : Prop where
  opened : ∃ n : Nat, (s.store.countersOf t).sessionsOpened = .ofNat n ∧
    (n : Int) = s.opened t + s.total (Job.unopened t)
  finished : ∃ n : Nat, (s.store.countersOf t).sessionsClosed = .ofNat n ∧
    (n : Int) = s.finished t - s.total (Job.unclosed t)

theorem census_withTables (limits : List Limits) (t : TableRef) :
    (withTables limits).Census t := by
  have hzero : (withTables limits).store.countersOf t = {} := by
    cases h : limits[t]? <;> simp [withTables, Store.withTables, Store.countersOf, h]
  refine ⟨⟨0, ?_, ?_⟩, ⟨0, ?_, ?_⟩⟩
  · rw [hzero]
    rfl
  · simp [total, Service.opened, withTables, Store.withTables]
  · rw [hzero]
    rfl
  · simp [total, Service.finished, withTables, Store.withTables]

section Step

variable {job next : Job} {instr : Instr Job}

/-- Only setting a session up changes how many there are. -/
private theorem opened_kept (hn : job.progress = .next instr)
    (hr : instr.run supply i s.store = some (next, s'.store))
    (hnot : ∀ a u r, job ≠ .attaching a (.open u r)) : s'.opened t = s.opened t := by
  have hon := Instr.sessions_of_run hr
  cases instr with
  | «open» u r after =>
    obtain ⟨a, hjob⟩ := Job.origin hn
    exact absurd hjob (hnot a u r)
  | finish c first again =>
    obtain ⟨x, hx, -⟩ := Instr.run_finish.mp hr
    have hcount := countP_modify (fun x ↦ { x with ended := true }) (fun x ↦ x.table == t) hx
    dsimp only at hcount
    rw [Int.sub_self, Int.add_zero] at hcount
    rw [opened, hon, opened]
    exact Int.ofNat_inj.mp hcount
  | _ => rw [opened, hon, opened]; rfl

/-- Only marking a session changes how many have ended. -/
private theorem finished_kept (hn : job.progress = .next instr)
    (hr : instr.run supply i s.store = some (next, s'.store))
    (hnot : ∀ d c, job ≠ .tearingDown d (.finish c)) : s'.finished t = s.finished t := by
  have hon := Instr.sessions_of_run hr
  cases instr with
  | «open» u r after => simp [finished, hon, Instr.onSessions]
  | finish c first again =>
    obtain ⟨d, hjob⟩ := Job.origin hn
    exact absurd hjob (hnot d c)
  | _ => rw [finished, hon, finished]; rfl

/-- What an attachment has still to set up, and what it counts, go with the number of sessions. -/
private theorem opened_step (hs : Reachable limits s) (hh : s.Housed t) (hj : s.job? i = some job)
    (hn : job.progress = .next instr) (hr : instr.run supply i s.store = some (next, s'.store)) :
    ∃ m : Nat, instr.adds t .sessionsOpened = .ofNat m ∧
      (s'.opened t : Int) + next.unopened t = s.opened t + job.unopened t + m := by
  cases job with
  | attaching a phase =>
    obtain ⟨step, hp, rfl⟩ := Progress.map_eq_next.mp hn
    obtain ⟨last, hrun, rfl⟩ := Instr.run_map_eq_some.mp hr
    cases phase with
    | ended o => cases hp
    | count u r =>
      cases hp
      obtain ⟨-, rfl, -⟩ := Instr.run_count.mp hrun
      have htable : a.table? = some u := by
        obtain ⟨h, hrun⟩ := hs
        exact (Reachable.leaves hrun hj).1
      have hbare : a.purpose ≠ .table t := by simpa [Job.isBare] using hh.bare hj
      refine ⟨if u = t then 1 else 0, ?_, ?_⟩
      · by_cases hu : u = t <;> simp [Instr.map, Instr.adds, hu]
      · rw [opened_kept hn hr (by simp)]
        unfold Attachment.table? at htable
        split at htable
        · cases htable
        all_goals
          next v hpurpose =>
          cases htable
          by_cases hu : u = t
          · subst hu
            simp_all [Job.unopened]
          · simp [Job.unopened, hpurpose, hu]
    | report u r =>
      cases hp
      obtain ⟨rfl, -⟩ := Instr.run_log.mp hrun
      refine ⟨0, rfl, ?_⟩
      rw [opened_kept hn hr (by simp)]
      unfold Attachment.logged
      split
      · simp [Job.unopened]
      · next hnot =>
        have hpurpose : a.purpose ≠ .session t := hnot t
        simp [Job.unopened, hpurpose]
    | «open» u r =>
      cases hp
      obtain ⟨rfl, hstore⟩ := Instr.run_open.mp hrun
      refine ⟨0, rfl, ?_⟩
      rw [opened, hstore, opened, Array.countP_push]
      simp only [Job.unopened, hs.purpose_of_open hj]
      by_cases hu : u = t <;> simp [hu]
    | start =>
      refine ⟨0, ?_, ?_⟩
      · obtain hzero | ⟨_, _, ⟨⟩⟩ := Job.adds_sessionsOpened (t := t) hn
        exact hzero
      · rw [opened_kept hn hr (by simp)]
        simp only [Attachment.progress] at hp
        split at hp
        · cases hp
          obtain ⟨-, rfl, -⟩ | ⟨-, rfl, -⟩ := Instr.run_enroll.mp hrun <;> simp [Job.unopened]
        all_goals
          cases hp
          obtain ⟨-, rfl, -⟩ := Instr.run_consult.mp hrun
          simp [Job.unopened]
    | enroll u capacity =>
      cases hp
      refine ⟨0, rfl, ?_⟩
      rw [opened_kept hn hr (by simp)]
      obtain ⟨-, rfl, -⟩ | ⟨-, rfl, -⟩ := Instr.run_enroll.mp hrun <;> simp [Job.unopened]
  | _ =>
    obtain ⟨step, -, rfl⟩ := Progress.map_eq_next.mp hn
    obtain ⟨last, -, rfl⟩ := Instr.run_map_eq_some.mp hr
    obtain hzero | ⟨_, _, ⟨⟩⟩ := Job.adds_sessionsOpened (t := t) hn
    refine ⟨0, hzero, ?_⟩
    rw [opened_kept hn hr (by simp)]
    simp [Job.unopened]

/-- What a teardown has still to count, and what it counts, go with the number of sessions that have
ended. -/
private theorem finished_step (ha : s.Apart) (hat : s.Attended t) (hj : s.job? i = some job)
    (hn : job.progress = .next instr) (hr : instr.run supply i s.store = some (next, s'.store)) :
    ∃ m : Nat, instr.adds t .sessionsClosed = .ofNat m ∧
      (s'.finished t : Int) - next.unclosed t = s.finished t - job.unclosed t + m := by
  cases job with
  | tearingDown d phase =>
    obtain ⟨step, hp, rfl⟩ := Progress.map_eq_next.mp hn
    obtain ⟨last, hrun, rfl⟩ := Instr.run_map_eq_some.mp hr
    cases phase with
    | ended o => cases hp
    | finish c =>
      cases hp
      obtain ⟨x, hx, ⟨-, rfl, hstore⟩ | ⟨he, rfl, hstore⟩⟩ := Instr.run_finish.mp hrun
      · refine ⟨0, rfl, ?_⟩
        rw [finished, hstore, finished]
        simp [Job.unclosed, Teardown.Phase.isUncounted]
      · obtain ⟨y, hy, ht, -⟩ := ha.ending hj
        cases hx.symm.trans hy
        refine ⟨0, rfl, ?_⟩
        have hcount := countP_modify (fun x ↦ { x with ended := true })
          (fun x ↦ x.table == t && x.ended) hx
        rw [finished, hstore, finished]
        simp only [Store.endSession, Job.unclosed, Teardown.Phase.isUncounted, ← ht] at hcount ⊢
        rw [hcount]
        cases hxt : x.table == t with
        | true => simp [he, beq_iff_eq.mp hxt]
        | false => simp [he, beq_eq_false_iff_ne.mp hxt]
    | countReleased w =>
      cases hp
      obtain ⟨-, rfl, -⟩ := Instr.run_count.mp hrun
      refine ⟨0, if_neg (by simp), ?_⟩
      rw [finished_kept hn hr (by simp)]
      by_cases ht : d.table = t
      · rw [if_pos (hat.first hj ht rfl)]
        simp [Job.unclosed, Teardown.Phase.isUncounted]
      · split <;> simp [Job.unclosed, ht]
    | countClosed w =>
      cases hp
      obtain ⟨-, rfl, -⟩ := Instr.run_count.mp hrun
      refine ⟨if d.table = t then 1 else 0, ?_, ?_⟩
      · by_cases ht : d.table = t <;> simp [Instr.map, Instr.adds, ht]
      · rw [finished_kept hn hr (by simp)]
        by_cases ht : d.table = t <;> simp [Job.unclosed, Teardown.Phase.isUncounted, ht]
    | _ =>
      obtain hzero | ⟨_, _, ⟨⟩, -⟩ := Job.adds_sessionsClosed (t := t) hn
      refine ⟨0, hzero, ?_⟩
      have hsame := Instr.Always.of_run
        (Teardown.isUncounted_kept (by simp) (by simp) (by simp) hp) hrun
      rw [finished_kept hn hr (by simp)]
      simp [Job.unclosed, hsame]
  | _ =>
    obtain ⟨step, -, rfl⟩ := Progress.map_eq_next.mp hn
    obtain ⟨last, -, rfl⟩ := Instr.run_map_eq_some.mp hr
    obtain hzero | ⟨_, _, ⟨⟩, -⟩ := Job.adds_sessionsClosed (t := t) hn
    refine ⟨0, hzero, ?_⟩
    rw [finished_kept hn hr (by simp)]
    simp [Job.unclosed]

end Step

/-- Counters of sessions follow the sessions, unless somebody edits them. -/
theorem Census.of_act? (hc : s.Census t) (hs : Reachable limits s) (hh : s.Housed t)
    (hat : s.Attended t) (hact : s.act? supply action = some s')
    (hthrough : s.throughSessions t action = true) (hreset : action ≠ .resetCounters t)
    (hcount : ∀ which amount, action ≠ .count t which amount) :
    s'.Census t := by
  have hd := does_of_act? hact
  obtain ⟨n, hopened, hn⟩ := hc.opened
  obtain ⟨m, hover, hm⟩ := hc.finished
  obtain ⟨i, job, instr, next, rfl, hj, hp, hr, hj'⟩ | hne := hd.step_or
  · refine ⟨?_, ?_⟩
    · obtain ⟨k, hadds, hk⟩ := opened_step hs hh hj hp hr
      refine ⟨n + k, ?_, ?_⟩
      · rw [UInt64.ofNat_add, ← hopened, ← hadds]
        exact Instr.counters_of_run hr t .sessionsOpened
      · rw [hd.total_step hj hj']
        omega
    · obtain ⟨k, hadds, hk⟩ := finished_step hs.apart hat hj hp hr
      refine ⟨m + k, ?_, ?_⟩
      · rw [UInt64.ofNat_add, ← hover, ← hadds]
        exact Instr.counters_of_run hr t .sessionsClosed
      · rw [hd.total_step hj hj']
        omega
  · have hsessions := hd.sessions_kept hne
    have hcounters := counters_kept hact hne hreset hcount
    refine ⟨⟨n, hcounters ▸ hopened, ?_⟩, ⟨m, hcounters ▸ hover, ?_⟩⟩
    · rw [hd.total_rest hne ?_, Service.opened, hsessions]
      · exact hn
      · intro request _ job hr
        cases Job.ofRequest?_eq_some.mp hr <;> rfl
    · rw [hd.total_rest hne ?_, Service.finished, hsessions]
      · exact hm
      · rintro request rfl job hr
        cases Job.ofRequest?_eq_some.mp hr with
        | @teardown u r ht hreg =>
          have hu : u ≠ t := by
            rintro rfl
            simp [throughSessions] at hthrough
          simp [Job.unclosed, hu]
        | endSession hx hreg => simp [Job.unclosed, Teardown.Phase.isUncounted]
        | _ => rfl

/-- The counters of sessions after a history that uses a table through its sessions only, and in
which nobody edits them. -/
theorem census_of_run (hc : s.Census t) (hs : Reachable limits s) (hh : s.Housed t)
    (hat : s.Attended t) (hr : s.run? h = some s') (honly : s.onlyThroughSessions t h = true)
    (hreset : ∀ e ∈ h, e.2 ≠ .resetCounters t)
    (hcount : ∀ e ∈ h, ∀ which amount, e.2 ≠ .count t which amount) : s'.Census t := by
  induction h generalizing s with
  | nil =>
    cases hr
    exact hc
  | cons e h ih =>
    obtain ⟨ha, v, hv, hr⟩ := run?_cons_eq_some.mp hr
    obtain ⟨hthrough, honly⟩ := (onlyThroughSessions_cons hv).mp honly
    have hd := does_of_act? hv
    exact ih (hc.of_act? hs hh hat hv hthrough (hreset e (by simp)) (hcount e (by simp)))
      (hs.act ha hv) (hh.of_does hs hd hthrough) (hat.of_does hh hs hd hthrough) hr honly
      (fun e he ↦ hreset e (by simp [he])) fun e he ↦ hcount e (by simp [he])

/-- When no call is under way, the counters of sessions are the numbers of sessions. -/
theorem Census.of_idle (hc : s.Census t) (hidle : s.Idle) :
    (s.store.countersOf t).sessionsOpened = .ofNat (s.opened t) ∧
      (s.store.countersOf t).sessionsClosed = .ofNat (s.finished t) := by
  obtain ⟨n, hopened, hn⟩ := hc.opened
  obtain ⟨m, hover, hm⟩ := hc.finished
  rw [hidle.total_eq_zero ?_, Int.add_zero] at hn
  · rw [hidle.total_eq_zero ?_, Int.sub_zero] at hm
    · exact ⟨by rw [hopened, Int.ofNat_inj.mp hn], by rw [hover, Int.ofNat_inj.mp hm]⟩
    · intro job o ho
      cases job with
      | tearingDown d phase =>
        cases phase with
        | ended o => simp [Job.unclosed, Teardown.Phase.isUncounted]
        | _ => cases Job.outcome?_eq_some.mp ho
      | _ => rfl
  · intro job o ho
    cases job with
    | attaching a phase =>
      cases phase with
      | report u r | «open» u r => cases Job.outcome?_eq_some.mp ho
      | _ => rfl
    | _ => rfl

end Service

end SessionBuffers
