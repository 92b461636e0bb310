import SessionBuffers.Proofs.Ownership
import SessionBuffers.Proofs.Release
import SessionBuffers.Proofs.Turnover

/-!
# What an operation may touch

A registry only ever lists keys of its own session. An allocation, a free or a teardown with a
registry and a table leaves all other registries and tables alone, and of its own table it only
takes out what the table had, and the registry listed, when it got its locks (`Job.Within`); of
that it releases the content. Whether another registry is for the same session makes no difference.
-/

namespace SessionBuffers

namespace Store

variable {s s' l : Store} {t : TableRef} {r : RegistryRef} {k : Key} {b : StorageRef}

/-- Whether a table has a key for a storage and a registry lists it. -/
def Lists (l : Store) (t : TableRef) (r : RegistryRef) (k : Key) (b : StorageRef) : Prop :=
  (l.rosterOf r).contains k = true ∧ (l.indexOf t)[k]? = some b

/-- Whether everything in the index of a table was there before. -/
def Remains (l s : Store) (t : TableRef) : Prop :=
  ∀ (k : Key) (b : StorageRef), (s.indexOf t)[k]? = some b → (l.indexOf t)[k]? = some b

theorem Remains.congr (h : l.Remains s t) (hi : s'.indexOf t = s.indexOf t) : l.Remains s' t := by
  rwa [Remains, hi]

/-- Whether everything that a table has and a registry lists was so before. -/
def Shrinks (l s : Store) (t : TableRef) (r : RegistryRef) : Prop :=
  l.Remains s t ∧ ∀ k, (s.rosterOf r).contains k = true → (l.rosterOf r).contains k = true

theorem Shrinks.refl (s : Store) (t : TableRef) (r : RegistryRef) : s.Shrinks s t r :=
  ⟨fun _ _ ↦ id, fun _ ↦ id⟩

/-- What an operation with a registry and a table may change, when its locks showed `l`, and the
keys that it inserts now are these. -/
structure Confines (l s s' : Store) (t : TableRef) (r : RegistryRef)
    (inserts : Key → StorageRef → Prop) : Prop where
  /-- No other registry is changed, neither what it lists nor whether it is closed. -/
  roster : ∀ q, q ≠ r → s'.rosterOf q = s.rosterOf q
  index : ∀ u, u ≠ t → s'.indexOf u = s.indexOf u
  /-- An entry stays, or it was listed and is taken out, or it is new. -/
  entry : ∀ k, (s'.indexOf t)[k]? = (s.indexOf t)[k]? ∨ k.session = s.sessionOf r ∧
    ((l.rosterOf r).contains k = true ∧ (s'.indexOf t)[k]? = none ∨
      ∃ b, inserts k b ∧ (s.indexOf t)[k]? = none ∧ (s'.indexOf t)[k]? = some b)
  /-- Content stays, or the registry listed its key in this table, and by now no index has it. -/
  content : ∀ b, s.Has (.content b) → s'.contentOf b = s.contentOf b ∨
    (∀ (u : TableRef) (k : Key), (s.indexOf u)[k]? ≠ some b) ∧
      ∃ k, k.session = s.sessionOf r ∧ l.Lists t r k b

end Store

namespace Job

/-- Whether a job has just been given the last of the locks under which it looks at its table. -/
def hasLocked : Job → Bool
  | allocating _ (.draw _) | freeing _ .find | tearingDown _ .close => true
  | _ => false

/-- Whether what a job has still to take out, or to release, was in its table and listed by its
registry when these were as in `l`. -/
def Within (l s : Store) : Job → Prop
  | freeing f phase => match phase with
    | .find | .checkOwner _ => l.Shrinks s f.table f.registry
    | .lockContent b | .erase b | .forget b | .unlockRegistry b | .unlockTable b | .dispose b =>
      l.Lists f.table f.registry f.key b
    | _ => True
  | tearingDown d phase => match phase with
    | .close | .drain _ => l.Shrinks s d.table d.registry
    | .find _ _ | .reportMissing _ _ | .lockContent _ _ _ | .erase _ _ _ | .unlockContent _ _ _ =>
      l.Remains s d.table ∧ ∀ k ∈ phase.pending, (l.rosterOf d.registry).contains k = true
    | .dispose key b w => (l.Remains s d.table ∧
      ∀ k ∈ w.todo, (l.rosterOf d.registry).contains k = true) ∧ l.Lists d.table d.registry key b
    | _ => True
  | _ => True

variable {supply : Supply} {who : CallRef} {l s s' : Store} {job next : Job} {instr : Instr Job}
  {t : TableRef} {r q : RegistryRef} {name : LockName} {mode : Mode}

/-- What a job takes out stays as it was while the places it has locked do not change. -/
theorem Within.congr (h : job.Within l s)
    (hi : ∀ t mode, (.table t, mode) ∈ job.held → s'.indexOf t = s.indexOf t)
    (hr : ∀ r mode, (.registry r, mode) ∈ job.held → s'.rosterOf r = s.rosterOf r) :
    job.Within l s' := by
  cases job with
  | freeing f phase =>
    cases phase with
    | find | checkOwner b =>
      have hi := hi f.table .exclusive (by simp [held, Removal.held])
      have hr := hr f.registry .exclusive (by simp [held, Removal.held])
      simpa only [Within, Store.Shrinks, Store.Remains, hi, hr] using h
    | _ => exact h
  | tearingDown d phase =>
    cases phase with
    | close | drain first =>
      have hi := hi d.table .exclusive (by simp [held, Teardown.held])
      have hr := hr d.registry .exclusive (by simp [held, Teardown.held])
      simpa only [Within, Store.Shrinks, Store.Remains, hi, hr] using h
    | find key w | reportMissing key w | lockContent key b w | erase key b w
    | unlockContent key b w | dispose key b w =>
      have hi := hi d.table .exclusive (by simp [held, Teardown.held])
      simpa only [Within, Store.Remains, hi] using h
    | _ => exact h
  | _ => exact h

private theorem within_resume {d : Teardown} {w : Teardown.Sweep} (hi : l.Remains s d.table)
    (hk : ∀ k ∈ w.todo, (l.rosterOf d.registry).contains k = true) :
    Within l s (.tearingDown d (.resume w)) := by
  unfold Teardown.Phase.resume
  split
  · trivial
  · next h => exact ⟨hi, by simpa [Teardown.Phase.pending, h] using hk⟩

private theorem within_removal {f : Removal} {phase x : Removal.Phase}
    {step : Instr Removal.Phase} (h : Within l s (.freeing f phase))
    (hk : Knows s (.freeing f phase)) (hp : f.progress phase = .next step)
    (hr : step.run supply who s = some (x, s')) (hl : hasLocked (.freeing f x) = false) :
    Within l s' (.freeing f x) := by
  cases phase with
  | ended o => cases hp
  | lockTable =>
    cases hp
    obtain ⟨-, _, -, rfl, -⟩ := Instr.run_acquire.mp hr
    cases hl
  | find =>
    cases hp
    obtain ⟨-, rfl, rfl⟩ := Instr.run_readIndex.mp hr
    split
    · exact h
    · trivial
  | checkOwner b =>
    cases hp
    obtain ⟨-, rfl, rfl⟩ := Instr.run_readRoster.mp hr
    split
    · next hcontains => exact ⟨h.2 _ hcontains, h.1 _ _ hk⟩
    · trivial
  | lockContent b | erase b | forget b | unlockRegistry b | unlockTable b =>
    cases hp
    exact Instr.Always.of_run (P := fun x ↦ Within l s' (.freeing f x))
      (by first | exact h | exact fun _ ↦ h) hr
  | _ =>
    cases hp
    exact Instr.Always.of_run (P := fun x ↦ Within l s' (.freeing f x))
      (by simp [Instr.Always, Within]) hr

private theorem within_teardown {d : Teardown} {phase x : Teardown.Phase}
    {step : Instr Teardown.Phase} (h : Within l s (.tearingDown d phase))
    (hk : Knows s (.tearingDown d phase)) (hp : d.progress phase = .next step)
    (hr : step.run supply who s = some (x, s')) (hl : hasLocked (.tearingDown d x) = false) :
    Within l s' (.tearingDown d x) := by
  have hc := Instr.changes_of_run hr
  cases phase with
  | ended o => cases hp
  | lockTable =>
    cases hp
    obtain ⟨-, _, -, rfl, -⟩ := Instr.run_acquire.mp hr
    cases hl
  | close =>
    cases hp
    obtain ⟨-, rfl, -⟩ := Instr.run_close.mp hr
    refine ⟨h.1.congr (hc.index _), fun k hcontains ↦ h.2 k ?_⟩
    rw [hc.roster] at hcontains
    simpa [Instr.onRoster] using hcontains
  | drain first =>
    cases hp
    obtain ⟨-, rfl, -⟩ := Instr.run_drain.mp hr
    exact within_resume (h.1.congr (hc.index _))
      fun k hmem ↦ h.2 k (Roster.mem_toList.mp hmem)
  | find key w =>
    cases hp
    obtain ⟨-, rfl, rfl⟩ := Instr.run_readIndex.mp hr
    split
    · exact h
    · exact ⟨h.1, fun k hmem ↦ h.2 k (List.mem_cons_of_mem _ hmem)⟩
  | reportMissing key w =>
    cases hp
    obtain ⟨rfl, rfl⟩ := Instr.run_log.mp hr
    exact within_resume h.1 h.2
  | lockContent key b w =>
    cases hp
    obtain ⟨-, _, -, rfl, -⟩ := Instr.run_acquire.mp hr
    exact ⟨h.1.congr (hc.index _), h.2⟩
  | erase key b w =>
    cases hp
    obtain ⟨-, rfl, -⟩ := Instr.run_erase.mp hr
    refine ⟨⟨fun k c hkc ↦ h.1 k c ?_, fun k hmem ↦ h.2 k (List.mem_cons_of_mem _ hmem)⟩,
      h.2 key List.mem_cons_self, h.1 key b hk⟩
    rw [hc.index, Instr.onIndex, if_pos rfl, Index.getElem?_erase] at hkc
    split at hkc
    · cases hkc
    · exact hkc
  | dispose key b w =>
    cases hp
    obtain ⟨-, rfl, -⟩ := Instr.run_dispose.mp hr
    exact ⟨h.1.1.congr (hc.index _), h.1.2⟩
  | unlockContent key b w =>
    cases hp
    obtain ⟨-, rfl, -⟩ := Instr.run_release.mp hr
    exact within_resume (h.1.congr (hc.index _)) h.2
  | countReleased w =>
    cases hp
    obtain ⟨-, rfl, -⟩ := Instr.run_count.mp hr
    split <;> trivial
  | _ =>
    cases hp
    exact Instr.Always.of_run (P := fun x ↦ Within l s' (.tearingDown d x))
      (by simp [Instr.Always, Within]) hr

/-- A step that does not complete its locks leaves a job within what it was within before. -/
theorem Within.step (h : job.Within l s) (hk : job.Knows s) (hn : job.progress = .next instr)
    (hr : instr.run supply who s = some (next, s')) (hl : next.hasLocked = false) :
    next.Within l s' := by
  cases job <;> obtain ⟨step, hp, rfl⟩ := Progress.map_eq_next.mp hn <;>
    obtain ⟨x, hx, rfl⟩ := Instr.run_map_eq_some.mp hr
  case freeing f phase => exact within_removal h hk hp hx hl
  case tearingDown d phase => exact within_teardown h hk hp hx hl
  all_goals trivial

/-- A job that has just completed its locks is within what they show. -/
theorem within_of_hasLocked (hl : job.hasLocked = true) : job.Within s s := by
  unfold hasLocked at hl
  split at hl
  · trivial
  · exact Store.Shrinks.refl ..
  · exact Store.Shrinks.refl ..
  · cases hl

/-- A job with a table and a registry locks no other table or registry. -/
theorem held_of_place? (hp : job.place? = some (t, r)) (hh : (name, mode) ∈ job.held) :
    name = .table t ∨ name = .registry r ∨ ∃ b, name = .content b := by
  cases job with
  | allocating a phase =>
    cases hp
    cases phase <;> grind [held, Allocation.held]
  | freeing f phase =>
    cases hp
    cases phase <;> grind [held, Removal.held]
  | tearingDown d phase =>
    cases hp
    cases phase <;> grind [held, Teardown.held]
  | _ => cases hp

/-- Only an allocation puts anything into an index. -/
private theorem inserts_of_mark? {i : CallRef} {m : Mark} (hm : job.mark? s i = some m)
    (hin : m.passage = .inserted) : ∃ a b key, job = .allocating a (.insert b key) ∧
      m = ⟨i, .inserted, a.table, ⟨key, b⟩⟩ := by
  unfold mark? at hm
  split at hm
  · split at hm
    · cases hm
    · cases hm
      exact ⟨_, _, _, rfl, rfl⟩
  · cases hm
    cases hin
  · cases hm
    cases hin
  · cases hm

/-- What a job takes out of an index its registry listed. -/
private theorem listed_of_mark? {i : CallRef} {m : Mark} (hplace : job.place? = some (t, r))
    (hw : job.Within l s) (hm : job.mark? s i = some m) (hgoes : m.passage ≠ .inserted) :
    m.table = t ∧ (l.rosterOf r).contains m.handle.key = true := by
  unfold mark? at hm
  split at hm
  · split at hm <;> cases hm
    exact absurd rfl hgoes
  · cases hm
    cases hplace
    exact ⟨rfl, hw.1⟩
  · cases hm
    cases hplace
    exact ⟨rfl, hw.2 _ List.mem_cons_self⟩
  · cases hm

/-- What a job has taken out and has still to release was listed. -/
private theorem lists_of_erased? {u : TableRef} {g : Handle} (hplace : job.place? = some (t, r))
    (hw : job.Within l s) (he : job.erased? = some (u, g)) : l.Lists t r g.key g.storage := by
  unfold erased? at he
  split at he <;> cases he <;> cases hplace
  case h_5 => exact hw.2
  all_goals exact hw

/-- A step of a job with a table and a registry changes nothing but what is its own. -/
theorem confines {i : CallRef} (hplace : job.place? = some (t, r)) (hw : job.Within l s)
    (hk : job.Knows s) (hproper : job.Proper) (hnamed : job.Named s)
    (hlisted : ∀ k, (l.rosterOf r).contains k = true → k.session = s.sessionOf r)
    (hout : ∀ b, job.owned? = some b → ∀ (u : TableRef) (k : Key), (s.indexOf u)[k]? ≠ some b)
    (hn : job.progress = .next instr) (hr : instr.run supply i s = some (next, s')) :
    l.Confines s s' t r fun k b ↦ ∃ a, job = .allocating a (.insert b k) := by
  have hc := Instr.changes_of_run hr
  have hguarded := Job.guarded hn
  constructor
  case roster =>
    intro q hq
    rw [hc.roster]
    refine hguarded.onRoster_eq (fun hmem ↦ ?_) _
    obtain h | h | ⟨b, h⟩ := held_of_place? hplace hmem <;> cases h
    exact hq rfl
  case index =>
    intro u hu
    rw [hc.index]
    refine hguarded.onIndex_eq (fun hmem ↦ ?_) _
    obtain h | h | ⟨b, h⟩ := held_of_place? hplace hmem <;> cases h
    exact hu rfl
  case entry =>
    intro k
    have hpasses := Job.passes hk hn hr
    generalize hm : job.mark? s i = m at hpasses
    cases hpasses with
    | still h => exact .inl (by rw [h])
    | @enters m hin hnew h =>
      obtain ⟨a, b, key, rfl, rfl⟩ := inserts_of_mark? hm hin
      cases hplace
      rw [h, if_pos rfl, Index.getElem?_insert]
      by_cases hkey : key = k
      · subst hkey
        exact .inr ⟨hproper.trans hnamed, .inr ⟨b, ⟨a, rfl⟩, hnew, by simp⟩⟩
      · simp [hkey]
    | @leaves m hgoes hin h =>
      obtain ⟨rfl, hkey⟩ := listed_of_mark? hplace hw hm hgoes
      rw [h, if_pos rfl, Index.getElem?_erase]
      by_cases hk : m.handle.key = k
      · exact .inr ⟨hk ▸ hlisted _ hkey, .inl ⟨hk ▸ hkey, by simp [hk]⟩⟩
      · simp [hk]
  case content =>
    intro b hb
    rw [hc.content b hb]
    cases instr with
    | dispose c next =>
      by_cases hcb : c = b
      · subst hcb
        obtain ⟨u, key, he⟩ := Job.erased?_of_dispose hn
        have hlists := lists_of_erased? hplace hw he
        exact .inr ⟨hout c (owned?_of_erased? he), key, hlisted key hlists.1, hlists⟩
      · exact .inl (if_neg hcb)
    | _ => exact .inl rfl

end Job

/-! ### Rosters list keys of their own session -/

/-- Whether a key that a job may record in a roster directly is of the session it acts for. -/
def Job.Vetted : Job → Prop
  | editing c .lock | editing c .tryLock | editing c .act =>
    ∀ key, c.action = .add key → key.session = c.session
  | _ => True

theorem Job.Vetted.step {job next : Job} {instr : Instr Job} {supply : Supply} {who : CallRef}
    {s s' : Store} (h : job.Vetted) (hn : job.progress = .next instr)
    (hr : instr.run supply who s = some (next, s')) : next.Vetted := by
  cases job <;> obtain ⟨step, hp, rfl⟩ := Progress.map_eq_next.mp hn <;>
    obtain ⟨x, hx, rfl⟩ := Instr.run_map_eq_some.mp hr
  case editing c phase =>
    refine Instr.Always.of_run (P := fun x ↦ Job.Vetted (.editing c x)) ?_ hx
    cases phase with
    | lock =>
      cases hp
      exact h
    | tryLock =>
      cases hp
      exact ⟨h, trivial⟩
    | act =>
      cases hp
      unfold RosterCall.act
      split <;> simp [Instr.Always, Vetted]
    | unlock o =>
      cases hp
      trivial
    | ended o => cases hp
  all_goals trivial

/-- A request begins as a job for the session of its registry, and a key of another session is
turned away. -/
theorem Job.vetted_of_ofRequest? {s : Store} {request : Request} {job : Job}
    (h : ofRequest? s request = some job) : job.Named s ∧ job.Vetted := by
  cases ofRequest?_eq_some.mp h with
  | @roster r action hr =>
    refine ⟨rfl, ?_⟩
    cases action with
    | add key =>
      simp only [RosterCall.start]
      split
      · next hkey =>
        intro k hk
        cases hk
        exact hkey
      · trivial
    | _ =>
      intro k hk
      cases hk
  | allocate | free => exact ⟨rfl, trivial⟩
  | _ => exact ⟨trivial, trivial⟩

namespace Service

variable {limits : List Limits} {supply : Supply} {s s' u : Service} {action : Action}
  {h : History} {i : CallRef} {job : Job} {t : TableRef} {r : RegistryRef} {k : Key} {l : Store}

/-- Whether calls act for the sessions of their registries, and rosters list keys of these only. -/
structure Kin (s : Service) : Prop where
  named : ∀ {i : CallRef} {job : Job}, s.job? i = some job → job.Named s.store ∧ job.Vetted
  listed : ∀ {r : RegistryRef} {k : Key}, (s.store.rosterOf r).contains k = true →
    k.session = s.store.sessionOf r

theorem kin_withTables (limits : List Limits) : (withTables limits).Kin := by
  constructor <;> simp [withTables, job?, Store.withTables, Store.rosterOf, Roster.contains]

/-- A key that a call records is of the session of its registry. -/
private theorem Kin.session_of_add {instr : Instr Job} {next : Job} (hk : s.Kin) (hs : s.Sound)
    (hj : s.job? i = some job) (hn : job.progress = .next instr) (hadd : instr = .add r k next) :
    k.session = s.store.sessionOf r := by
  subst hadd
  obtain ⟨hnamed, hvetted⟩ := hk.named hj
  obtain ⟨call, hc, rfl⟩ := job?_eq_some.mp hj
  have hproper := hs.proper hc
  obtain ⟨a, b, hjob, rfl⟩ | ⟨c, hjob, rfl, hact⟩ := Job.origin hn
  · rw [hjob] at hnamed hproper
    exact Eq.trans hproper hnamed
  · rw [hjob] at hnamed hvetted
    exact (hvetted k hact).trans hnamed

/-- Every action leaves it so. -/
theorem Kin.of_does (hk : s.Kin) (hs : s.Sound) (hscoped : s.Scoped)
    (hd : s.Does supply action s') : s'.Kin where
  named := by
    intro i job hj
    obtain ⟨hold, -⟩ | ⟨request, -, hr, hstore⟩ | ⟨before, instr, rfl, hbefore, hn, hr⟩ :=
      hd.job_cases hj
    · obtain ⟨call, hc, rfl⟩ := job?_eq_some.mp hold
      obtain ⟨hnamed, hvetted⟩ := hk.named hold
      exact ⟨hnamed.congr (hscoped.jobs hc) fun _ ↦ hd.sessionOf_kept, hvetted⟩
    · rw [hstore]
      exact Job.vetted_of_ofRequest? hr
    · obtain ⟨call, hc, rfl⟩ := job?_eq_some.mp hbefore
      obtain ⟨hnamed, hvetted⟩ := hk.named hbefore
      have hsame := (Instr.Always.of_run (Job.kept_of_next hn) hr).2 s'.store
      exact ⟨hsame.mpr (hnamed.congr (hscoped.jobs hc) fun _ ↦ hd.sessionOf_kept),
        hvetted.step hn hr⟩
  listed := by
    intro r k hin
    by_cases hstep : ∃ i, action = .step i
    · obtain ⟨i, rfl⟩ := hstep
      obtain ⟨call, instr, next, hc, hn, hr, -⟩ := hd.calls_step
      have hj : s.job? i = some call.job := job?_eq_some.mpr ⟨call, hc, rfl⟩
      rw [(Instr.changes_of_run hr).roster] at hin
      obtain hold | ⟨after, hadd⟩ := Instr.contains_onRoster hin
      · rw [hd.sessionOf_kept (Store.has_of_contains hold)]
        exact hk.listed hold
      · have hhas : s.store.Has (.registry r) := by
          subst hadd
          obtain ⟨a, b, hjob, rfl⟩ | ⟨c, hjob, rfl, -⟩ := Job.origin hn <;>
            have hscope := hscoped.jobs hc <;> rw [hjob] at hscope
          · exact hscope.2
          · exact hscope
        rw [hd.sessionOf_kept hhas]
        exact hk.session_of_add hs hj hn hadd
    · rw [(hd.views_kept fun i he ↦ hstep ⟨i, he⟩).2] at hin
      rw [hd.sessionOf_kept (Store.has_of_contains hin)]
      exact hk.listed hin

theorem Reachable.kin (hr : Reachable limits s) : s.Kin := by
  refine (hr.induct (P := fun s ↦ s.Kin ∧ Reachable limits s)
    ⟨kin_withTables limits, ⟨[], rfl⟩⟩ fun _ _ _ _ hs ha h ↦ ?_).1
  exact ⟨hs.1.of_does hs.2.sound hs.2.scoped (does_of_act? h), hs.2.act ha h⟩

/-- The session of a registry never changes. -/
theorem sessionOf_of_run (hhas : s.store.Has (.registry r)) (hr : s.run? h = some s') :
    s'.store.sessionOf r = s.store.sessionOf r := by
  refine (run_induct (P := fun u ↦ u.store.Has (.registry r) ∧
    u.store.sessionOf r = s.store.sessionOf r) (fun _ _ _ _ hp _ hact ↦ ?_) ⟨hhas, rfl⟩ hr).2
  have hd := does_of_act? hact
  exact ⟨hd.has_kept hp.1, (hd.sessionOf_kept hp.1).trans hp.2⟩

/-! ### What a call was shown by its locks -/

/-- The service right after the step with which a call completed its locks, and none while it has
not. -/
def lockedAt (i : CallRef) : Service → History → Option Service
  | _, [] => none
  | s, (supply, action) :: h =>
    match s.act? supply action with
    | some u => (u.lockedAt i h).or
      (if action = .step i ∧ (u.job? i).any Job.hasLocked then some u else none)
    | none => none

/-- A call that has completed its locks has done so on the way. -/
theorem run_of_lockedAt (hs : Reachable limits s) (hr : s.run? h = some s')
    (hl : s.lockedAt i h = some u) : Reachable limits u ∧ ∃ after, u.run? after = some s' := by
  induction h generalizing s with
  | nil => cases hl
  | cons e h ih =>
    obtain ⟨ha, v, hv, hr⟩ := run?_cons_eq_some.mp hr
    simp only [lockedAt, hv] at hl
    cases hlater : v.lockedAt i h with
    | some w =>
      rw [hlater, Option.some_or] at hl
      cases hl
      exact ih (hs.act ha hv) hr hlater
    | none =>
      rw [hlater, Option.none_or] at hl
      split at hl
      · cases hl
        exact ⟨hs.act ha hv, h, hr⟩
      · cases hl

/-- Where a call makes no step, what it takes out stays as its locks showed it. -/
private theorem within_kept (hs : s.Sound) (hd : s.Does supply action s')
    (hj : s.job? i = some job) (hne : action ≠ .step i) (hw : job.Within l s.store) :
    job.Within l s'.store := by
  obtain ⟨call, hc, rfl⟩ := job?_eq_some.mp hj
  cases ho : call.job.progress with
  | next instr =>
    exact hw.congr
      (fun t mode hh ↦ hs.locked.index_kept hd (hs.holds_of_next hj ho hh) hne)
      fun r mode hh ↦ hs.locked.roster_kept hd (hs.holds_of_next hj ho hh) hne
  | ended o =>
    refine hw.congr (fun t mode hh ↦ ?_) fun r mode hh ↦ ?_ <;>
    · obtain ⟨g, -, hname, -⟩ := Job.held_of_outcome? (Job.outcome?_eq_some.mpr ho) _ _ hh
      cases hname

/-- What a call takes out was there, and listed, when it completed its locks. -/
theorem within_of_run (hs : s.Sound) (hr : s.run? h = some s')
    (hw : ∀ job, s.job? i = some job → job.Within l s.store) (hj : s'.job? i = some job) :
    job.Within (((s.lockedAt i h).map Service.store).getD l) s'.store := by
  induction h generalizing s l with
  | nil =>
    cases hr
    exact hw job hj
  | cons e h ih =>
    obtain ⟨ha, v, hv, hr⟩ := run?_cons_eq_some.mp hr
    have hd := does_of_act? hv
    simp only [lockedAt, hv]
    have hnext (hnot : ¬ (e.2 = .step i ∧ (v.job? i).any Job.hasLocked)) (next : Job)
        (hnext : v.job? i = some next) : next.Within l v.store := by
      obtain ⟨hold, hne⟩ | ⟨request, -, hrequest, -⟩ | ⟨before, instr, hstep, hbefore, hn, hrun⟩ :=
        hd.job_cases hnext
      · exact within_kept hs hd hold hne (hw next hold)
      · cases Job.ofRequest?_eq_some.mp hrequest <;> trivial
      · refine (hw before hbefore).step (hs.knows_job? hbefore) hn hrun ?_
        rw [← Bool.not_eq_true]
        exact fun hlocked ↦ hnot ⟨hstep, by simp [hnext, hlocked]⟩
    split
    · next hlocked =>
      have hlater := ih (l := v.store) (hs.of_does ha hd) hr fun next hnext ↦ by
        obtain ⟨-, hlocked⟩ := hlocked
        rw [hnext, Option.any_some] at hlocked
        exact Job.within_of_hasLocked hlocked
      generalize v.lockedAt i h = later at hlater ⊢
      cases later <;> exact hlater
    · next hnot =>
      have hlater := ih (hs.of_does ha hd) hr (hnext hnot)
      rw [Option.or_none]
      exact hlater

/-! ### An operation touches only what its registry owns -/

/-- The keys that a registry lists are of its session, and a key of another session is turned away.
A step of a call that allocates, frees or tears down with a registry and a table changes no other
registry and no other table. Of its own table it takes out only what the table had, and the registry
listed, when the call completed its locks, so nothing before that; and it puts in at most the one
new key of an allocation. It changes no content but of such a buffer, which is in no index by
then. -/
theorem operations_touch_only_their_own (hr : (withTables limits).run? h = some s) :
    (∀ r k, (s.store.rosterOf r).contains k = true → k.session = s.store.sessionOf r) ∧
    (∀ r key supply, s.store.Has (.registry r) → key.session ≠ s.store.sessionOf r →
      ∃ s', s.Completes supply (.roster r (.add key)) .misuse s' ∧ s'.store = s.store) ∧
    (∀ supply i job t r s', s.act? supply (.step i) = some s' → s.job? i = some job →
      job.place? = some (t, r) →
        ((((withTables limits).lockedAt i h).map Service.store).getD {}).Confines s.store s'.store
          t r fun k b ↦ ∃ a, job = .allocating a (.insert b k)) ∧
    ∀ i a phase, s.job? i = some (.allocating a phase) →
      ((withTables limits).marksOf h i).length ≤ 1 := by
  have hreach : Reachable limits s := ⟨h, hr⟩
  have hs := hreach.sound
  refine ⟨fun r k ↦ hreach.kin.listed, fun r key supply hhas hkey ↦
    completes_foreign_add hhas hkey supply, fun supply i job t r s' hact hj hplace ↦ ?_,
    fun i a phase hj ↦ ?_⟩
  · obtain ⟨instr, next, hn, hrun, -⟩ := (does_of_act? hact).job_step hj
    have hw : job.Within ((((withTables limits).lockedAt i h).map Service.store).getD {}) s.store :=
      within_of_run (sound_withTables limits) hr (by simp [withTables, job?]) hj
    obtain ⟨call, hc, rfl⟩ := job?_eq_some.mp hj
    refine Job.confines hplace hw (hs.knows hc) (hs.proper hc) (hreach.kin.named hj).1
      (fun k hk ↦ ?_) (fun b ho ↦ (hs.owned hc ho).2) hn hrun
    cases hl : (withTables limits).lockedAt i h with
    | none => simp [hl, Store.rosterOf, Roster.contains] at hk
    | some u =>
      rw [hl] at hk
      obtain ⟨hu, after, hafter⟩ := run_of_lockedAt ⟨[], rfl⟩ hr hl
      rw [sessionOf_of_run (Store.has_of_contains hk) hafter]
      exact hu.kin.listed hk
  · rw [show (withTables limits).marksOf h i = _ from (Reachable.marked hr).accounts hj]
    cases (Job.allocating a phase).kept? <;> simp

/-- Two registries of one session have a buffer each, and the second is being torn down: its buffer
is taken out next. -/
def tornDownBeside : History :=
  History.allocated ⟨7⟩ 4 4 ++ History.call (.attach ⟨⟨7⟩, .alone 1⟩) 2 1 ++
    History.call (.allocate 0 1 8 8) 3 14 ++ History.call (.teardown 0 1) 4 6

/-- The buffer of the first registry stays where it is, with its content. -/
theorem torn_down_alone : ∃ s s', (withTables [{}]).run? tornDownBeside = some s ∧
    s.act? .addressable (.step 4) = some s' ∧
    (s'.store.indexOf 0)[(⟨⟨7⟩, ⟨1⟩⟩ : Key)]? = none ∧
    (s'.store.indexOf 0)[(⟨⟨7⟩, ⟨0⟩⟩ : Key)]? = some 0 ∧
    (s'.store.rosterOf 0).contains ⟨⟨7⟩, ⟨0⟩⟩ = true ∧
    s'.store.contentOf 0 = s.store.contentOf 0 := by
  have hrun : ((withTables [{}]).run? tornDownBeside).map (fun s ↦
      (s.job? 4, (s.store.indexOf 0)[(⟨⟨7⟩, ⟨0⟩⟩ : Key)]?,
        (s.store.rosterOf 0).contains ⟨⟨7⟩, ⟨0⟩⟩, s.store.storages.size,
        (s.act? .addressable (.step 4)).map fun s' ↦
          (s'.store.indexOf 0)[(⟨⟨7⟩, ⟨1⟩⟩ : Key)]?)) =
      some (some (.tearingDown ⟨0, 1, ⟨7⟩⟩ (.erase ⟨⟨7⟩, ⟨1⟩⟩ 1 ⟨true, [], [], 0⟩)), some 0, true,
        2, some none) := by
    decide +kernel
  have hlocked : ((withTables [{}]).lockedAt 4 tornDownBeside).map (fun l ↦
      (l.store.rosterOf 1).contains ⟨⟨7⟩, ⟨0⟩⟩) = some false := by
    decide +kernel
  obtain ⟨s, hs, h⟩ := Option.map_eq_some_iff.mp hrun
  obtain ⟨l, hl, hunlisted⟩ := Option.map_eq_some_iff.mp hlocked
  simp only [Prod.mk.injEq] at h
  obtain ⟨hjob, hindex, hlists, hsize, hstep⟩ := h
  obtain ⟨s', hs', hgone⟩ := Option.map_eq_some_iff.mp hstep
  obtain ⟨-, -, hconfines, -⟩ := operations_touch_only_their_own hs
  have hc := hconfines .addressable 4 _ 0 1 s' hs' hjob rfl
  rw [hl, Option.map_some, Option.getD_some] at hc
  refine ⟨s, s', hs, hs', hgone, ?_, ?_, ?_⟩
  · obtain hsame | ⟨-, ⟨hlisted, -⟩ | ⟨b, ⟨a, ha⟩, -⟩⟩ := hc.entry ⟨⟨7⟩, ⟨0⟩⟩
    · rw [hsame, hindex]
    · rw [hunlisted] at hlisted
      cases hlisted
    · cases ha
  · rw [hc.roster 0 (by decide), hlists]
  · obtain hsame | ⟨hnowhere, -⟩ := hc.content 0 (Store.has_content.mpr (by rw [hsize]; decide))
    · exact hsame
    · exact absurd hindex (hnowhere 0 _)

end Service

end SessionBuffers
