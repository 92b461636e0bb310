import SessionBuffers.Proofs.Ownership

/-!
# Keys that registries list

When a registry is used with one table only and is otherwise just read (`Service.UsedWith`), every
buffer that was allocated with it and is in the index of the table is in its roster, or a call which
holds the registry is about to put it there or to take it out of the index (`Service.Lists`). This
is kept whatever is done with other registries.
-/

namespace SessionBuffers

namespace Service

variable {limits : List Limits} {supply : Supply} {s s' : Service} {action : Action} {h : History}
  {t : TableRef} {r : RegistryRef} {i : CallRef} {k : Key}

/-- Whether a key is in a roster, or a call that has taken it out or is about to put it there has
still to deal with it. -/
def Lists (s : Service) (r : RegistryRef) (k : Key) : Prop :=
  (s.store.rosterOf r).contains k = true ∨ ∃ i job, s.job? i = some job ∧ job.Adds r k

/-- Whether a registry is used with one table only, and its roster is not changed directly. -/
def UsedWith (s : Service) (t : TableRef) (r : RegistryRef) : Prop :=
  ∀ (i : CallRef) (job : Job), s.job? i = some job →
    (∀ u, job.place? = some (u, r) → u = t) ∧ job.edits r = false

/-- What no call is for in the end no call was for before. -/
theorem UsedWith.of_run (hu : s'.UsedWith t r) (hr : s.run? h = some s') : s.UsedWith t r := by
  intro i job hj
  obtain ⟨last, hlast, hsame⟩ := sameTask_of_run hj hr
  obtain ⟨hplace, -, -, hedits, -⟩ := hsame.same
  obtain ⟨htable, hspared⟩ := hu i last hlast
  exact ⟨fun u hp ↦ htable u (hplace.trans hp), (hedits r).symm.trans hspared⟩

/-! ### Keys from step to step -/

/-- A teardown keeps a key it has to deal with until the key is out of the index. -/
private theorem pending_step {d : Teardown} {phase last : Teardown.Phase}
    {step : Instr Teardown.Phase} {who : CallRef} {u u' : Store}
    (hp : d.progress phase = .next step) (hr : step.run supply who u = some (last, u'))
    (hk : k ∈ phase.pending) (hin : (u.indexOf d.table).contains k = true)
    (hin' : (u'.indexOf d.table).contains k = true) : k ∈ last.pending := by
  cases phase with
  | find key w =>
    cases hp
    obtain ⟨-, rfl, -⟩ := Instr.run_readIndex.mp hr
    split
    · exact hk
    · next hnone =>
      obtain rfl | hk := List.mem_cons.mp hk
      · rw [Index.not_contains_iff.mpr hnone] at hin
        cases hin
      · exact hk
  | reportMissing key w =>
    cases hp
    obtain ⟨rfl, -⟩ := Instr.run_log.mp hr
    rwa [Teardown.pending_resume]
  | lockContent key b w =>
    cases hp
    obtain ⟨-, _, -, rfl, -⟩ := Instr.run_acquire.mp hr
    exact hk
  | erase key b w =>
    cases hp
    have hindex := (Instr.changes_of_run hr).index d.table
    obtain ⟨-, rfl, -⟩ := Instr.run_erase.mp hr
    obtain rfl | hk := List.mem_cons.mp hk
    · rw [hindex, Instr.onIndex, if_pos rfl, Index.contains_erase] at hin'
      exact absurd rfl hin'.1
    · exact hk
  | dispose key b w =>
    cases hp
    obtain ⟨-, rfl, -⟩ := Instr.run_dispose.mp hr
    exact hk
  | unlockContent key b w =>
    cases hp
    obtain ⟨-, rfl, -⟩ := Instr.run_release.mp hr
    rwa [Teardown.pending_resume]
  | _ => cases hk

section Step

variable {job next : Job} {instr : Instr Job}

/-- A key that a call has to deal with stays with it or is recorded, while it is in the index. -/
private theorem UsedWith.adds_step (hu : s.UsedWith t r) (hj : s.job? i = some job)
    (hn : job.progress = .next instr) (hr : instr.run supply i s.store = some (next, s'.store))
    (hin : (s.store.indexOf t).contains k = true)
    (hin' : (s'.store.indexOf t).contains k = true) (hadds : job.Adds r k) :
    (s'.store.rosterOf r).contains k = true ∨ next.Adds r k := by
  cases job with
  | allocating a phase =>
    obtain ⟨step, hp, rfl⟩ := Progress.map_eq_next.mp hn
    obtain ⟨last, hrun, rfl⟩ := Instr.run_map_eq_some.mp hr
    cases phase with
    | unlockTable b key =>
      cases hp
      obtain ⟨-, rfl, -⟩ := Instr.run_release.mp hrun
      exact .inr hadds
    | enlist b key =>
      obtain ⟨rfl, rfl⟩ := hadds
      cases hp
      left
      rw [(Instr.changes_of_run hr).roster]
      simp [Instr.map, Instr.onRoster, Roster.contains_add]
    | _ => exact hadds.elim
  | tearingDown d phase =>
    obtain ⟨rfl, hk⟩ := hadds
    obtain ⟨step, hp, rfl⟩ := Progress.map_eq_next.mp hn
    obtain ⟨last, hrun, rfl⟩ := Instr.run_map_eq_some.mp hr
    obtain rfl := (hu i _ hj).1 _ rfl
    exact .inr ⟨rfl, pending_step hp hrun hk hin hin'⟩
  | _ => exact hadds.elim

/-- A recorded key stays recorded, or the call that has taken it has to deal with it, while it is in
the index. -/
private theorem UsedWith.contains_step (hu : s.UsedWith t r) (hs : s.Sound)
    (hj : s.job? i = some job) (hn : job.progress = .next instr)
    (hr : instr.run supply i s.store = some (next, s'.store))
    (hin : (s.store.indexOf t).contains k = true)
    (hk : (s.store.rosterOf r).contains k = true) :
    (s'.store.rosterOf r).contains k = true ∨ next.Adds r k := by
  have hspared (hedits : job.edits r = true) : False := by
    rw [(hu i _ hj).2] at hedits
    cases hedits
  have hroster := (Instr.changes_of_run hr).roster r
  cases instr with
  | remove q key after =>
    by_cases hq : q = r
    · subst hq
      by_cases hkey : key = k
      · subst hkey
        exfalso
        obtain ⟨f, b, rfl, rfl, rfl⟩ | ⟨c, rfl, rfl, hact⟩ := Job.origin hn
        · obtain rfl := (hu i _ hj).1 _ rfl
          obtain ⟨hnone, -⟩ : _ ∧ _ := hs.knows_job? hj
          rw [Index.not_contains_iff.mpr hnone] at hin
          cases hin
        · exact hspared (by simp [Job.edits, hact, RosterAction.changes])
      · left
        rw [hroster, Instr.onRoster, if_pos rfl, Roster.contains_remove]
        exact ⟨hkey, hk⟩
    · left
      rw [hroster, Instr.onRoster, if_neg hq]
      exact hk
  | drain q after =>
    by_cases hq : q = r
    · subst hq
      obtain ⟨d, first, rfl, rfl⟩ | ⟨c, rfl, rfl, hact⟩ := Job.origin hn
      · cases hn
        obtain ⟨-, rfl, -⟩ := Instr.run_drain.mp hr
        exact .inr (Job.adds_resume.mpr ⟨rfl, Roster.mem_toList.mpr hk⟩)
      · exact (hspared (by simp [Job.edits, hact, RosterAction.changes])).elim
    · left
      rw [hroster, Instr.onRoster, if_neg hq]
      exact hk
  | add q key after =>
    left
    rw [hroster, Instr.onRoster]
    split
    · exact Roster.contains_add.mpr (.inr hk)
    · exact hk
  | close q after =>
    left
    rw [hroster, Instr.onRoster]
    split <;> exact hk
  | _ =>
    left
    rw [hroster]
    exact hk

/-- What has just been put into the index is to be recorded next. -/
private theorem adds_of_insert {a : Allocation} {b : StorageRef} {u u' : Store}
    (hn : job.progress = .next instr) (hr : instr.run supply i u = some (next, u'))
    (howned : job.owned? = some b) (hkept : next.kept? = some (a, ⟨k, b⟩)) :
    next.Adds a.registry k := by
  cases job with
  | allocating c phase =>
    obtain ⟨step, hp, rfl⟩ := Progress.map_eq_next.mp hn
    obtain ⟨last, hrun, rfl⟩ := Instr.run_map_eq_some.mp hr
    cases phase with
    | insert b key =>
      cases hp
      obtain ⟨-, ⟨-, rfl, -⟩ | ⟨-, rfl, -⟩⟩ := Instr.run_insert.mp hrun
      · cases hkept
      · cases hkept
        exact ⟨rfl, rfl⟩
    | lockContent b | lockRegistry b | lockTable b | reserve b | draw b | abandonRegistry b why
    | abandonTable b why | abandonContent b why =>
      cases hp
      have hnone : (Job.allocating c last).kept? = none :=
        Instr.Always.of_run (P := fun x ↦ (Job.allocating c x).kept? = none)
          (by simp [Instr.Always, Job.kept?]) hrun
      rw [hnone] at hkept
      cases hkept
    | _ => cases howned
  | _ =>
    obtain ⟨step, -, rfl⟩ := Progress.map_eq_next.mp hn
    obtain ⟨last, -, rfl⟩ := Instr.run_map_eq_some.mp hr
    cases hkept

end Step

/-- A key that is listed stays listed while it is in the index. -/
private theorem Lists.of_does (hl : s.Lists r k) (hu : s.UsedWith t r) (hs : s.Sound)
    (hd : s.Does supply action s')
    (hin : (s.store.indexOf t).contains k = true)
    (hin' : (s'.store.indexOf t).contains k = true) : s'.Lists r k := by
  obtain ⟨i, job, instr, next, rfl, hj, hn, hr, hj'⟩ | hne := hd.step_or
  · have hthen (h : (s'.store.rosterOf r).contains k = true ∨ next.Adds r k) : s'.Lists r k :=
      h.imp id fun hadds ↦ ⟨i, next, hj', hadds⟩
    obtain hk | ⟨j, job, hjob, hadds⟩ := hl
    · exact hthen (hu.contains_step hs hj hn hr hin hk)
    · by_cases hji : j = i
      · subst hji
        cases hj.symm.trans hjob
        exact hthen (hu.adds_step hj hn hr hin hin' hadds)
      · exact .inr ⟨j, job, hd.job_kept hjob (by simpa using Ne.symm hji), hadds⟩
  · obtain hk | ⟨j, job, hjob, hadds⟩ := hl
    · rw [← (hd.views_kept hne).2] at hk
      exact .inl hk
    · exact .inr ⟨j, job, hd.job_kept hjob (hne j), hadds⟩

/-- A buffer in the index of a table is listed after every action, when the registry it was
allocated with is used with this table only. -/
private theorem lists_of_does {a : Allocation} {b : StorageRef} (hs : s.Sound)
    (hs' : s'.Sound) (hd : s.Does supply action s') (hu : s.UsedWith t a.registry)
    (hl : s.Keeps a ⟨k, b⟩ → (s.store.indexOf t)[k]? = some b → s.Lists a.registry k)
    (hk : s'.Keeps a ⟨k, b⟩) (hin' : (s'.store.indexOf t)[k]? = some b) :
    s'.Lists a.registry k := by
  by_cases hin : (s.store.indexOf t)[k]? = some b
  · obtain ⟨c, hkept, -⟩ := hs.kept hin
    obtain ⟨rfl, -⟩ := hs'.keeps_unique hk (hkept.of_does hs hd) rfl
    exact (hl hkept hin).of_does hu hs hd (Index.contains_iff.mpr ⟨b, hin⟩)
      (Index.contains_iff.mpr ⟨b, hin'⟩)
  · obtain ⟨i, job, instr, next, rfl, hj, hn, hr, hj'⟩ | hne := hd.step_or
    · obtain hold | ⟨howned, -, c, hkept, -⟩ := (hs.moves hd hj hj').index hin'
      · exact absurd hold hin
      · obtain ⟨call', hc', rfl⟩ := job?_eq_some.mp hj'
        obtain ⟨rfl, -⟩ := hs'.keeps_unique hk ⟨i, call', hc', hkept⟩ rfl
        exact .inr ⟨i, call'.job, hj', adds_of_insert hn hr howned hkept⟩
    · rw [(hd.views_kept hne).1] at hin'
      exact absurd hin' hin

/-- In every reachable service, what has been allocated with a registry that is used with one table
only is listed while it is in the index of the table. -/
theorem Reachable.lists {a : Allocation} {b : StorageRef} (hs : Reachable limits s)
    (hu : s.UsedWith t a.registry) (hk : s.Keeps a ⟨k, b⟩)
    (hin : (s.store.indexOf t)[k]? = some b) : s.Lists a.registry k := by
  refine (hs.induct (P := fun s ↦ Reachable limits s ∧ (s.UsedWith t a.registry →
    s.Keeps a ⟨k, b⟩ → (s.store.indexOf t)[k]? = some b → s.Lists a.registry k))
    ⟨⟨[], rfl⟩, fun _ _ hin ↦ ?_⟩ fun s supply action s' ⟨hs, hl⟩ ha hact ↦ ?_).2 hu hk hin
  · simp [indexOf_withTables] at hin
  · refine ⟨hs.act ha hact, fun hu' hk' hin' ↦ ?_⟩
    have hu := hu'.of_run (h := [(supply, action)]) (run?_cons_eq_some.mpr ⟨ha, s', hact, rfl⟩)
    exact lists_of_does hs.sound (hs.act ha hact).sound (does_of_act? hact) hu (hl hu) hk' hin'

end Service

end SessionBuffers
