import SessionBuffers.Proofs.Guards

/-!
# Index and rosters agree

When every registry is used with one table only and its roster is changed only through that table,
the keys in the index of a table are those in the rosters used with it, each in one of them. In
between, an allocation has its key in the index before it records it, a free takes it out of the
index before it forgets it, and a teardown forgets all keys at once and then takes them out one by
one. Each of them holds the registry meanwhile. So a registry has a claim to the keys in its
roster that no free is about to forget, and to those that an allocation or a teardown has still to
deal with; and it is these claims that agree with the index after every action (`Matched`).
-/

namespace SessionBuffers

/-! ### Keys a job deals with -/

/-- The keys that a teardown has drained and not yet taken out of the index. -/
def Teardown.Phase.pending : Teardown.Phase → List Key
  | .find key s | .lockContent key _ s | .erase key _ s => key :: s.todo
  | .reportMissing _ s | .dispose _ _ s | .unlockContent _ _ s => s.todo
  | _ => []

/-- From where it stands, how many buffers a teardown will have released in the end if every drained
key is in the index: those in the roster it is about to drain, or those it has drained. -/
def Teardown.total? (d : Teardown) (s : Store) : Phase → Option Nat
  | .drain _ => some (s.rosterOf d.registry).size
  | .find _ w | .lockContent _ _ w | .erase _ _ w | .dispose _ _ w | .unlockContent _ _ w =>
    some (w.released + w.todo.length + 1)
  | .unlockRegistry w | .unlockTable w | .countReleased w | .countClosed w | .report w =>
    some w.released
  | .ended (.number n) => some n
  | _ => none

/-- Whether an action changes the keys of a roster. -/
def RosterAction.changes : RosterAction → Bool
  | .add _ | .remove _ | .drain => true
  | .contains _ | .tryContains _ | .keys | .size => false

namespace Job

/-- Whether a job uses registries only with the tables they belong to, and changes no roster
directly. -/
def AtHome (home : RegistryRef → TableRef) : Job → Prop
  | allocating a _ => a.table = home a.registry
  | freeing f _ => f.table = home f.registry
  | tearingDown d _ => d.table = home d.registry
  | editing c _ => c.action.changes = false
  | attaching _ _ | lookingUp _ _ | accessing _ _ | inspecting _ _ | drawing _ _ => True

instance (home : RegistryRef → TableRef) : (job : Job) → Decidable (job.AtHome home)
  | allocating a _ => inferInstanceAs (Decidable (a.table = home a.registry))
  | freeing f _ => inferInstanceAs (Decidable (f.table = home f.registry))
  | tearingDown d _ => inferInstanceAs (Decidable (d.table = home d.registry))
  | editing c _ => inferInstanceAs (Decidable (c.action.changes = false))
  | attaching _ _ | lookingUp _ _ | accessing _ _ | inspecting _ _ | drawing _ _ => isTrue trivial

/-- Whether a job has a key in the index that is not in the roster: a new one that is still to be
recorded, or a drained one that is still to be taken out. -/
def Adds : Job → RegistryRef → Key → Prop
  | allocating a (.unlockTable _ key), r, k | allocating a (.enlist _ key), r, k =>
    r = a.registry ∧ k = key
  | tearingDown d phase, r, k => r = d.registry ∧ k ∈ phase.pending
  | _, _, _ => False

/-- Whether a job has taken a key out of the index that is still in the roster. -/
def Hides : Job → RegistryRef → Key → Prop
  | freeing f (.forget _), r, k => r = f.registry ∧ k = f.key
  | _, _, _ => False

/-- The keys a registry has a claim to, as far as one job is concerned. -/
def Claims (s : Store) (job : Job) (r : RegistryRef) (k : Key) : Prop :=
  ((s.rosterOf r).contains k = true ∧ ¬ job.Hides r k) ∨ job.Adds r k

/-- A job that sets a claim apart from the roster holds the registry. -/
theorem held_of_adds {job : Job} {r : RegistryRef} {k : Key} (h : job.Adds r k) :
    (.registry r, .exclusive) ∈ job.held := by
  cases job with
  | allocating a phase =>
    cases phase <;> simp only [Adds] at h <;> simp [held, Allocation.held, h.1]
  | tearingDown d phase =>
    cases phase <;> simp [Adds, Teardown.Phase.pending] at h <;>
      simp [held, Teardown.held, h.1]
  | _ => cases h

theorem held_of_hides {job : Job} {r : RegistryRef} {k : Key} (h : job.Hides r k) :
    (.registry r, .exclusive) ∈ job.held := by
  cases job with
  | freeing f phase =>
    cases phase <;> simp only [Hides] at h
    simp [held, Removal.held, h.1]
  | _ => cases h

end Job

/-- Whether a teardown has drained no key twice and has not met a drained key that was missing. -/
def Job.Orderly (job : Job) : Prop :=
  ∀ d phase, job = .tearingDown d phase →
    phase.pending.Nodup ∧ ∀ key sweep, phase ≠ .reportMissing key sweep

/-- What a job that deals with drained or new keys can rely on: they are not in the roster, and they
are dealt with in order. -/
structure Job.Tidy (s : Store) (job : Job) : Prop where
  apart : ∀ r k, job.Adds r k → (s.rosterOf r).contains k = false
  orderly : job.Orderly

theorem Teardown.pending_resume (s : Sweep) : (Phase.resume s).pending = s.todo := by
  unfold Phase.resume
  split
  · next h => exact h.symm
  · next h => exact h.symm

theorem Job.adds_resume {d : Teardown} {s : Teardown.Sweep} {r : RegistryRef} {k : Key} :
    Job.Adds (.tearingDown d (.resume s)) r k ↔ r = d.registry ∧ k ∈ s.todo := by
  rw [Adds, Teardown.pending_resume]

/-- A request begins with no keys to deal with. -/
theorem Job.idle_keys_of_ofRequest? {s : Store} {request : Request} {job : Job}
    (h : ofRequest? s request = some job) : ∀ r k, ¬ job.Adds r k ∧ ¬ job.Hides r k := by
  have hheld := held_of_ofRequest? h
  refine fun r k ↦ ⟨fun ha ↦ ?_, fun hh ↦ ?_⟩
  · have := held_of_adds ha
    rw [hheld] at this
    cases this
  · have := held_of_hides hh
    rw [hheld] at this
    cases this

/-- A request begins with nothing drained. -/
theorem Job.orderly_of_ofRequest? {s : Store} {request : Request} {job : Job}
    (h : ofRequest? s request = some job) : job.Orderly := by
  rintro d phase rfl
  cases ofRequest?_eq_some.mp h <;> exact ⟨.nil, by simp⟩

/-! ### What a step does to claims -/

/-- What a step does to an index and to the claims of registries: nothing, or one key comes into the
index and is claimed, or one key that is claimed goes out of it and is not claimed any more. -/
inductive Shift (home : RegistryRef → TableRef) (s s' : Store) (job job' : Job) : Prop
  | stay (index : ∀ t k, (s'.indexOf t).contains k = (s.indexOf t).contains k)
    (claims : ∀ r k, job'.Claims s' r k ↔ job.Claims s r k)
  | bring (r : RegistryRef) (key : Key) (held : (.registry r, .exclusive) ∈ job.held)
    (fresh : (s.indexOf (home r)).contains key = false)
    (index : ∀ t k, (s'.indexOf t).contains k = true ↔
      (s.indexOf t).contains k = true ∨ t = home r ∧ k = key)
    (claims : ∀ q k, job'.Claims s' q k ↔ job.Claims s q k ∨ q = r ∧ k = key)
  | lose (r : RegistryRef) (key : Key) (held : (.registry r, .exclusive) ∈ job.held)
    (claimed : job.Claims s r key)
    (index : ∀ t k, (s'.indexOf t).contains k = true ↔
      (s.indexOf t).contains k = true ∧ ¬ (t = home r ∧ k = key))
    (claims : ∀ q k, job'.Claims s' q k ↔ job.Claims s q k ∧ ¬ (q = r ∧ k = key))

namespace Shift

variable {home : RegistryRef → TableRef} {supply : Supply} {who : CallRef} {s s' : Store}
  {job job' : Job} {instr : Instr Job}

/-- A step that changes neither index nor roster, of a job that deals with the same keys after
it. -/
private theorem of_same (hr : instr.run supply who s = some (job', s'))
    (hi : ∀ t index, instr.onIndex t index = index)
    (ho : ∀ r roster, (instr.onRoster r roster).contains = roster.contains)
    (h : instr.Always fun job' ↦ ∀ r k, (job'.Hides r k ↔ job.Hides r k) ∧
      (job'.Adds r k ↔ job.Adds r k)) : Shift home s s' job job' := by
  have hc := Instr.changes_of_run hr
  have h := Instr.Always.of_run h hr
  refine .stay (fun t k ↦ by rw [hc.index, hi]) fun r k ↦ ?_
  rw [Job.Claims, Job.Claims, hc.roster, ho, (h r k).1, (h r k).2]

private theorem allocation {a : Allocation} {phase : Allocation.Phase}
    {step : Instr Allocation.Phase} (hh : Job.AtHome home (.allocating a phase))
    (hn : a.progress phase = .next step)
    (hr : (step.map (.allocating a)).run supply who s = some (job', s')) :
    Shift home s s' (.allocating a phase) job' := by
  have hc := Instr.changes_of_run hr
  cases phase with
  | checkLimits =>
    cases hn
    refine of_same hr (fun _ _ ↦ rfl) (fun _ _ ↦ rfl) fun limits ↦ ?_
    dsimp only [Function.comp]
    split <;> exact fun _ _ ↦ ⟨.rfl, .rfl⟩
  | insert b key =>
    cases hn
    obtain ⟨-, ⟨-, rfl, rfl⟩ | ⟨hfresh, rfl, -⟩⟩ := Instr.run_insert.mp hr
    · exact .stay (fun _ _ ↦ rfl) fun _ _ ↦ .rfl
    · refine .bring a.registry key (by simp [Job.held, Allocation.held])
        (hh ▸ hfresh) (fun t k ↦ ?_) fun q k ↦ ?_
      · rw [hc.index, ← show a.table = home a.registry from hh]
        simp only [Instr.map, Instr.onIndex]
        by_cases ht : a.table = t
        · subst ht
          rw [if_pos rfl, hfresh, if_neg Bool.false_ne_true, Index.contains_insert]
          simp only [true_and, or_comm, eq_comm]
        · simp [ht, Ne.symm ht]
      · rw [Job.Claims, Job.Claims, hc.roster]
        simp [Instr.map, Instr.onRoster, Job.Hides, Job.Adds]
  | enlist b key =>
    cases hn
    obtain ⟨-, rfl, -⟩ := Instr.run_add.mp hr
    refine .stay (fun t k ↦ by rw [hc.index]; rfl) fun r k ↦ ?_
    rw [Job.Claims, Job.Claims, hc.roster]
    simp only [Instr.map, Instr.onRoster, Job.Hides, Job.Adds, not_false_eq_true, and_true,
      or_false]
    by_cases hq : a.registry = r
    · subst hq
      rw [if_pos rfl, Roster.contains_add]
      simp only [true_and, or_comm, eq_comm]
    · simp [hq, Ne.symm hq]
  | draw b =>
    cases hn
    exact of_same hr (fun _ _ ↦ rfl) (fun _ _ ↦ rfl) fun _ _ _ ↦ ⟨.rfl, .rfl⟩
  | _ =>
    cases hn <;> refine of_same hr (fun _ _ ↦ rfl) (fun _ _ ↦ rfl) ?_ <;>
      simp [Instr.map, Instr.Always, Job.Hides, Job.Adds]

private theorem removal {f : Removal} {phase : Removal.Phase} {step : Instr Removal.Phase}
    (hh : Job.AtHome home (.freeing f phase)) (hk : Job.Knows s (.freeing f phase))
    (hn : f.progress phase = .next step)
    (hr : (step.map (.freeing f)).run supply who s = some (job', s')) :
    Shift home s s' (.freeing f phase) job' := by
  have hc := Instr.changes_of_run hr
  cases phase with
  | find =>
    cases hn
    refine of_same hr (fun _ _ ↦ rfl) (fun _ _ ↦ rfl) fun index ↦ ?_
    dsimp only [Function.comp]
    split <;> exact fun _ _ ↦ ⟨.rfl, .rfl⟩
  | checkOwner b =>
    cases hn
    refine of_same hr (fun _ _ ↦ rfl) (fun _ _ ↦ rfl) fun roster ↦ ?_
    dsimp only [Function.comp]
    split <;> exact fun _ _ ↦ ⟨.rfl, .rfl⟩
  | erase b =>
    cases hn
    obtain ⟨-, rfl, -⟩ := Instr.run_erase.mp hr
    refine .lose f.registry f.key (by simp [Job.held, Removal.held])
      (.inl ⟨hk.2, by simp [Job.Hides]⟩) (fun t k ↦ ?_) fun q k ↦ ?_
    · rw [hc.index, ← show f.table = home f.registry from hh]
      simp only [Instr.map, Instr.onIndex]
      by_cases ht : f.table = t
      · subst ht
        rw [if_pos rfl, Index.contains_erase]
        simp only [true_and, and_comm, eq_comm, ne_eq]
      · simp [ht, Ne.symm ht]
    · rw [Job.Claims, Job.Claims, hc.roster]
      simp [Instr.map, Instr.onRoster, Job.Hides, Job.Adds]
  | forget b =>
    cases hn
    obtain ⟨-, rfl, -⟩ := Instr.run_remove.mp hr
    refine .stay (fun t k ↦ by rw [hc.index]; rfl) fun r k ↦ ?_
    rw [Job.Claims, Job.Claims, hc.roster]
    simp only [Instr.map, Instr.onRoster, Job.Hides, Job.Adds, not_false_eq_true, and_true,
      or_false, Function.comp]
    by_cases hq : f.registry = r
    · subst hq
      rw [if_pos rfl, Roster.contains_remove]
      simp only [true_and, and_comm, eq_comm, ne_eq]
    · simp [hq, Ne.symm hq]
  | _ =>
    cases hn <;> refine of_same hr (fun _ _ ↦ rfl) (fun _ _ ↦ rfl) ?_ <;>
      simp [Instr.map, Instr.Always, Job.Hides, Job.Adds]

/-- A step of a teardown. A drained key is in the index, so none is missing. -/
private theorem teardown {d : Teardown} {phase : Teardown.Phase} {step : Instr Teardown.Phase}
    (hh : Job.AtHome home (.tearingDown d phase)) (ht : Job.Tidy s (.tearingDown d phase))
    (hin : ∀ r k, Job.Adds (.tearingDown d phase) r k → (s.indexOf (home r)).contains k = true)
    (hn : d.progress phase = .next step)
    (hr : (step.map (.tearingDown d)).run supply who s = some (job', s')) :
    Shift home s s' (.tearingDown d phase) job' := by
  have hc := Instr.changes_of_run hr
  cases phase with
  | drain first =>
    cases hn
    obtain ⟨-, rfl, -⟩ := Instr.run_drain.mp hr
    refine .stay (fun t k ↦ by rw [hc.index]; rfl) fun r k ↦ ?_
    rw [Job.Claims, Job.Claims, hc.roster, Function.comp_apply, Job.adds_resume,
      Teardown.Sweep.start, Roster.mem_toList]
    simp only [Instr.map, Instr.onRoster, Job.Hides, not_false_eq_true, and_true, Job.Adds,
      Teardown.Phase.pending, List.not_mem_nil, and_false, or_false]
    by_cases hq : d.registry = r
    · subst hq
      simp [Roster.not_contains_drained]
    · simp [hq, Ne.symm hq]
  | find key sweep =>
    cases hn
    obtain ⟨-, rfl, rfl⟩ := Instr.run_readIndex.mp hr
    dsimp only [Function.comp]
    split
    · exact .stay (fun _ _ ↦ rfl) fun _ _ ↦ .rfl
    · next hnone =>
      have hkey := hin d.registry key ⟨rfl, List.mem_cons_self⟩
      rw [← show d.table = home d.registry from hh, Index.contains_iff] at hkey
      obtain ⟨b, hb⟩ := hkey
      rw [hnone] at hb
      cases hb
  | erase key b sweep =>
    cases hn
    obtain ⟨-, rfl, -⟩ := Instr.run_erase.mp hr
    have hadds : Job.Adds (.tearingDown d (.erase key b sweep)) d.registry key :=
      ⟨rfl, List.mem_cons_self⟩
    have hnot := ht.apart _ _ hadds
    obtain ⟨hkey, -⟩ := List.nodup_cons.mp (ht.orderly d _ rfl).1
    refine .lose d.registry key (by simp [Job.held, Teardown.held]) (.inr hadds)
      (fun t k ↦ ?_) fun q k ↦ ?_
    · rw [hc.index, ← show d.table = home d.registry from hh]
      simp only [Instr.map, Instr.onIndex]
      by_cases htab : d.table = t
      · subst htab
        rw [if_pos rfl, Index.contains_erase]
        simp only [true_and, and_comm, eq_comm, ne_eq]
      · simp [htab, Ne.symm htab]
    · rw [Job.Claims, Job.Claims, hc.roster]
      simp only [Instr.map, Instr.onRoster, Job.Hides, Job.Adds, Teardown.Phase.pending,
        not_false_eq_true, and_true, List.mem_cons]
      by_cases hq : q = d.registry
      · subst hq
        by_cases hkk : k = key
        · subst hkk
          simp [hnot, hkey]
        · simp [hkk]
      · simp [hq]
  | close =>
    cases hn
    refine of_same hr (fun _ _ ↦ rfl) (fun r roster ↦ ?_) fun _ _ _ ↦ ⟨.rfl, .rfl⟩
    simp only [Instr.map, Instr.onRoster]
    split <;> rfl
  | reportMissing key sweep =>
    cases hn
    refine of_same hr (fun _ _ ↦ rfl) (fun _ _ ↦ rfl) fun r k ↦
      ⟨.rfl, Job.adds_resume.trans .rfl⟩
  | unlockContent key b sweep =>
    cases hn
    refine of_same hr (fun _ _ ↦ rfl) (fun _ _ ↦ rfl) fun r k ↦
      ⟨.rfl, Job.adds_resume.trans .rfl⟩
  | countReleased sweep =>
    cases hn
    refine of_same hr (fun _ _ ↦ rfl) (fun _ _ ↦ rfl) ?_
    dsimp only [Instr.map, Instr.Always]
    split <;> exact fun _ _ ↦ ⟨.rfl, .rfl⟩
  | _ =>
    cases hn <;> refine of_same hr (fun _ _ ↦ rfl) (fun _ _ ↦ rfl) ?_ <;>
      simp [Instr.map, Instr.Always, Job.Hides, Job.Adds, Teardown.Phase.pending]

/-- A step of a job that neither adds keys to the index nor hides any, and that has neither a table
nor a roster alone. -/
private theorem of_bystander (hn : job.progress = .next instr)
    (hr : instr.run supply who s = some (job', s'))
    (ht : ∀ t, (.table t, .exclusive) ∉ job.held)
    (ho : ∀ r, (s'.rosterOf r).contains = (s.rosterOf r).contains)
    (hh : ∀ r k, ¬ job.Hides r k ∧ ¬ job'.Hides r k)
    (ha : ∀ r k, ¬ job.Adds r k ∧ ¬ job'.Adds r k) :
    Shift home s s' job job' := by
  have hc := Instr.changes_of_run hr
  refine .stay (fun t k ↦ ?_) fun r k ↦ ?_
  · rw [hc.index, (Job.guarded hn).onIndex_eq (ht t)]
  · simp [Job.Claims, ho, hh r k, ha r k]

/-- A step of any job that uses registries at home and finds what it claims in the index. -/
theorem of_run (hh : job.AtHome home) (hk : job.Knows s) (ht : job.Tidy s)
    (hin : ∀ r k, job.Adds r k → (s.indexOf (home r)).contains k = true)
    (hn : job.progress = .next instr) (hr : instr.run supply who s = some (job', s')) :
    Shift home s s' job job' := by
  have hc := Instr.changes_of_run hr
  have hroster (h : ∀ r, (.registry r, .exclusive) ∉ job.held) (r : RegistryRef) :
      (s'.rosterOf r).contains = (s.rosterOf r).contains := by
    rw [hc.roster, (Job.guarded hn).onRoster_eq (h r)]
  cases job with
  | allocating a phase =>
    obtain ⟨step, hp, rfl⟩ := Progress.map_eq_next.mp hn
    exact allocation hh hp hr
  | freeing f phase =>
    obtain ⟨step, hp, rfl⟩ := Progress.map_eq_next.mp hn
    exact removal hh hk hp hr
  | tearingDown d phase =>
    obtain ⟨step, hp, rfl⟩ := Progress.map_eq_next.mp hn
    exact teardown hh ht hin hp hr
  | editing c phase =>
    obtain ⟨step, hp, rfl⟩ := Progress.map_eq_next.mp hn
    obtain ⟨next, -, rfl⟩ := Instr.run_map_eq_some.mp hr
    refine of_bystander hn hr (by cases phase <;> simp [Job.held, RosterCall.held]) (fun r ↦ ?_)
      (fun _ _ ↦ ⟨id, id⟩) fun _ _ ↦ ⟨id, id⟩
    rw [hc.roster]
    cases phase with
    | act =>
      cases hp
      simp only [RosterCall.act]
      split <;> simp_all [Job.AtHome, RosterAction.changes, Instr.map, Instr.onRoster]
    | _ => cases hp <;> rfl
  | attaching a phase =>
    obtain ⟨step, hp, rfl⟩ := Progress.map_eq_next.mp hn
    obtain ⟨next, -, rfl⟩ := Instr.run_map_eq_some.mp hr
    exact of_bystander hn hr (by simp [Job.held]) (hroster (by simp [Job.held]))
      (fun _ _ ↦ ⟨id, id⟩) fun _ _ ↦ ⟨id, id⟩
  | lookingUp l phase =>
    obtain ⟨step, hp, rfl⟩ := Progress.map_eq_next.mp hn
    obtain ⟨next, -, rfl⟩ := Instr.run_map_eq_some.mp hr
    exact of_bystander hn hr (by cases phase <;> cases hp <;> simp [Job.held, Lookup.held])
      (hroster (by cases phase <;> cases hp <;> simp [Job.held, Lookup.held]))
      (fun _ _ ↦ ⟨id, id⟩) fun _ _ ↦ ⟨id, id⟩
  | accessing a phase =>
    obtain ⟨step, hp, rfl⟩ := Progress.map_eq_next.mp hn
    obtain ⟨next, -, rfl⟩ := Instr.run_map_eq_some.mp hr
    exact of_bystander hn hr (by cases phase <;> cases hp <;> simp [Job.held, Access.held])
      (hroster (by cases phase <;> cases hp <;> simp [Job.held, Access.held]))
      (fun _ _ ↦ ⟨id, id⟩) fun _ _ ↦ ⟨id, id⟩
  | inspecting i phase =>
    obtain ⟨step, hp, rfl⟩ := Progress.map_eq_next.mp hn
    obtain ⟨next, -, rfl⟩ := Instr.run_map_eq_some.mp hr
    exact of_bystander hn hr (by cases phase <;> simp [Job.held, Inspection.held])
      (hroster (by cases phase <;> simp [Job.held, Inspection.held]))
      (fun _ _ ↦ ⟨id, id⟩) fun _ _ ↦ ⟨id, id⟩
  | drawing d phase =>
    obtain ⟨step, hp, rfl⟩ := Progress.map_eq_next.mp hn
    obtain ⟨next, -, rfl⟩ := Instr.run_map_eq_some.mp hr
    exact of_bystander hn hr (by simp [Job.held]) (hroster (by simp [Job.held]))
      (fun _ _ ↦ ⟨id, id⟩) fun _ _ ↦ ⟨id, id⟩

end Shift

section Tidy

variable {home : RegistryRef → TableRef} {supply : Supply} {who : CallRef} {s s' : Store}
  {job job' : Job} {instr : Instr Job}

/-- A step after which a job deals with no keys that it did not deal with before. -/
private theorem tidy_of_always (ht : job.Tidy s) (hr : instr.run supply who s = some (job', s'))
    (h : instr.Always fun next ↦ next.Orderly ∧
      ∀ r k, next.Adds r k → job.Adds r k ∧ ∀ roster, instr.onRoster r roster = roster) :
    job'.Tidy s' := by
  obtain ⟨horderly, hadds⟩ := Instr.Always.of_run h hr
  refine ⟨fun r k hk ↦ ?_, horderly⟩
  obtain ⟨hk, hsame⟩ := hadds r k hk
  rw [(Instr.changes_of_run hr).roster, hsame]
  exact ht.apart r k hk

private theorem orderly_allocating (a : Allocation) (phase : Allocation.Phase) :
    Job.Orderly (.allocating a phase) := by
  rintro _ _ ⟨⟩

private theorem orderly_tearingDown {d : Teardown} {phase : Teardown.Phase}
    (hp : phase.pending.Nodup) (hm : ∀ key sweep, phase ≠ .reportMissing key sweep) :
    Job.Orderly (.tearingDown d phase) := by
  rintro _ _ ⟨⟩
  exact ⟨hp, hm⟩

private theorem orderly_resume {d : Teardown} {sweep : Teardown.Sweep} (h : sweep.todo.Nodup) :
    Job.Orderly (.tearingDown d (.resume sweep)) := by
  refine orderly_tearingDown (by rwa [Teardown.pending_resume]) fun key other ↦ ?_
  unfold Teardown.Phase.resume
  split <;> simp

private theorem tidy_allocation {a : Allocation} {phase : Allocation.Phase}
    {step : Instr Allocation.Phase} (ht : Job.Tidy s (.allocating a phase))
    (hh : Job.AtHome home (.allocating a phase))
    (hin : ∀ r k, (.registry r, .exclusive) ∈ Job.held (.allocating a phase) →
      Job.Claims s (.allocating a phase) r k → (s.indexOf (home r)).contains k = true)
    (hn : a.progress phase = .next step)
    (hr : (step.map (.allocating a)).run supply who s = some (job', s')) : job'.Tidy s' := by
  cases phase with
  | checkLimits =>
    cases hn
    refine tidy_of_always ht hr fun limits ↦ ⟨orderly_allocating a _, ?_⟩
    dsimp only [Function.comp]
    split <;> exact fun _ _ h ↦ h.elim
  | insert b key =>
    cases hn
    have hc := Instr.changes_of_run hr
    obtain ⟨-, ⟨-, rfl, -⟩ | ⟨hfresh, rfl, -⟩⟩ := Instr.run_insert.mp hr
    · exact ⟨fun _ _ h ↦ h.elim, orderly_allocating a _⟩
    · refine ⟨fun r k hk ↦ ?_, orderly_allocating a _⟩
      obtain ⟨rfl, rfl⟩ := hk
      have hroster : s'.rosterOf a.registry = s.rosterOf a.registry := hc.roster a.registry
      rw [hroster, Bool.eq_false_iff]
      intro hk
      have hindex := hin a.registry k (by simp [Job.held, Allocation.held]) (.inl ⟨hk, id⟩)
      rw [← show a.table = home a.registry from hh, hfresh] at hindex
      cases hindex
  | _ =>
    cases hn <;> refine tidy_of_always ht hr ?_ <;>
      simp [Instr.map, Instr.Always, Instr.onRoster, Job.Adds, orderly_allocating]

private theorem tidy_teardown {d : Teardown} {phase : Teardown.Phase} {step : Instr Teardown.Phase}
    (ht : Job.Tidy s (.tearingDown d phase)) (hh : Job.AtHome home (.tearingDown d phase))
    (hin : ∀ r k, (.registry r, .exclusive) ∈ Job.held (.tearingDown d phase) →
      Job.Claims s (.tearingDown d phase) r k → (s.indexOf (home r)).contains k = true)
    (hn : d.progress phase = .next step)
    (hr : (step.map (.tearingDown d)).run supply who s = some (job', s')) : job'.Tidy s' := by
  obtain ⟨hnodup, hfound⟩ := ht.orderly d phase rfl
  cases phase with
  | drain first =>
    cases hn
    have hc := Instr.changes_of_run hr
    obtain ⟨-, rfl, -⟩ := Instr.run_drain.mp hr
    refine ⟨fun r k hk ↦ ?_, orderly_resume (Roster.nodup_toList _)⟩
    obtain ⟨rfl, -⟩ := Job.adds_resume.mp hk
    rw [hc.roster, Bool.eq_false_iff]
    simpa [Instr.map, Instr.onRoster] using Roster.not_contains_drained _ k
  | find key sweep =>
    cases hn
    -- What has been drained is claimed, so it is in the index.
    have hkey := hin d.registry key (by simp [Job.held, Teardown.held])
      (.inr ⟨rfl, List.mem_cons_self⟩)
    rw [← show d.table = home d.registry from hh, Index.contains_iff] at hkey
    obtain ⟨b, hb⟩ := hkey
    obtain ⟨-, rfl, rfl⟩ := Instr.run_readIndex.mp hr
    dsimp only [Function.comp]
    rw [hb]
    exact ⟨ht.apart, orderly_tearingDown hnodup (by simp)⟩
  | erase key b sweep =>
    cases hn
    exact tidy_of_always ht hr ⟨orderly_tearingDown (List.nodup_cons.mp hnodup).2 (by simp),
      fun r k h ↦ ⟨⟨h.1, List.mem_cons_of_mem _ h.2⟩, fun _ ↦ rfl⟩⟩
  | reportMissing key sweep => exact absurd rfl (hfound key sweep)
  | unlockContent key b sweep =>
    cases hn
    exact tidy_of_always ht hr ⟨orderly_resume hnodup,
      fun r k h ↦ ⟨(Job.adds_resume (s := sweep.take key)).mp h, fun _ ↦ rfl⟩⟩
  | lockContent key b sweep | dispose key b sweep =>
    cases hn
    exact tidy_of_always ht hr ⟨orderly_tearingDown hnodup (by simp), fun r k h ↦ ⟨h, fun _ ↦ rfl⟩⟩
  | countReleased sweep =>
    cases hn
    refine tidy_of_always ht hr ?_
    dsimp only [Instr.map, Instr.Always]
    split <;> exact ⟨orderly_tearingDown .nil (by simp), by simp [Job.Adds, Teardown.Phase.pending]⟩
  | close =>
    cases hn
    exact tidy_of_always ht hr fun first ↦
      ⟨orderly_tearingDown .nil (by simp), by simp [Job.Adds, Teardown.Phase.pending]⟩
  | finish c =>
    cases hn
    refine tidy_of_always ht hr ⟨?_, ?_⟩ <;>
      exact ⟨orderly_tearingDown .nil (by simp), by simp [Job.Adds, Teardown.Phase.pending]⟩
  | _ =>
    cases hn <;> exact tidy_of_always ht hr
      ⟨orderly_tearingDown .nil (by simp), by simp [Job.Adds, Teardown.Phase.pending]⟩

/-- After a step of its own a job can rely on the same: what it claims is in the index, so a key
that comes into the index was in no roster. -/
theorem Job.Tidy.step (ht : job.Tidy s) (hh : job.AtHome home)
    (hin : ∀ r k, (.registry r, .exclusive) ∈ job.held → job.Claims s r k →
      (s.indexOf (home r)).contains k = true)
    (hn : job.progress = .next instr) (hr : instr.run supply who s = some (job', s')) :
    job'.Tidy s' := by
  cases job with
  | allocating a phase =>
    obtain ⟨step, hp, rfl⟩ := Progress.map_eq_next.mp hn
    exact tidy_allocation ht hh hin hp hr
  | tearingDown d phase =>
    obtain ⟨step, hp, rfl⟩ := Progress.map_eq_next.mp hn
    exact tidy_teardown ht hh hin hp hr
  | _ =>
    obtain ⟨step, hp, rfl⟩ := Progress.map_eq_next.mp hn
    obtain ⟨next, -, rfl⟩ := Instr.run_map_eq_some.mp hr
    refine ⟨fun _ _ h ↦ h.elim, ?_⟩
    rintro _ _ ⟨⟩

end Tidy

/-! ### Claims of a service -/

namespace Service

variable {home : RegistryRef → TableRef} {limits : List Limits} {supply : Supply} {s s' : Service}
  {action : Action} {i : CallRef}

/-- Whether every registry is used with one table only, and no roster is changed directly. -/
def AtHome (home : RegistryRef → TableRef) (s : Service) : Prop :=
  ∀ (i : CallRef) (job : Job), s.job? i = some job → job.AtHome home

/-- Whether a registry has a claim to a key: no call hides the key, or some call adds it. -/
def Claims (s : Service) (r : RegistryRef) (k : Key) : Prop :=
  ((s.store.rosterOf r).contains k = true ∧
    ∀ (i : CallRef) (job : Job), s.job? i = some job → ¬ job.Hides r k) ∨
  ∃ (i : CallRef) (job : Job), s.job? i = some job ∧ job.Adds r k

/-- The index of every table holds the keys that the registries used with it have a claim to, and no
two of those registries have a claim to one key. -/
structure Matched (home : RegistryRef → TableRef) (s : Service) : Prop where
  indexed : ∀ t k, (s.store.indexOf t).contains k = true ↔ ∃ r, home r = t ∧ s.Claims r k
  single : ∀ {r q : RegistryRef} {k : Key}, s.Claims r k → s.Claims q k → home r = home q → r = q
  tidy : ∀ {i : CallRef} {job : Job}, s.job? i = some job → job.Tidy s.store

/-- Where no other call holds a registry, the claims of the registry are those that one call
makes of them. -/
private theorem Locked.claims_iff (hs : s.Locked) {job : Job} (hj : s.job? i = some job)
    {r : RegistryRef} (hother : ∀ j, j ≠ i → ¬ s.Holds j (.registry r) .exclusive) (k : Key) :
    s.Claims r k ↔ job.Claims s.store r k := by
  have hi {j : CallRef} {other : Job} (hjo : s.job? j = some other)
      (hh : (.registry r, .exclusive) ∈ other.held) : other = job := by
    by_cases hji : j = i
    · subst hji
      exact Option.some.inj (hjo.symm.trans hj)
    · exact absurd (hs.holds_of_held hjo (by simp) hh) (hother j hji)
  constructor
  · rintro (⟨hk, hnot⟩ | ⟨j, other, hjo, ha⟩)
    · exact .inl ⟨hk, hnot i job hj⟩
    · exact .inr (hi hjo (Job.held_of_adds ha) ▸ ha)
  · rintro (⟨hk, hnot⟩ | ha)
    · refine .inl ⟨hk, fun j other hjo hhides ↦ hnot ?_⟩
      exact hi hjo (Job.held_of_hides hhides) ▸ hhides
    · exact .inr ⟨i, job, hj, ha⟩

/-- What a step of one call does to the claims of a registry. Another call may hold the registry,
and then nothing changes; otherwise the claims are those that this call makes of them. -/
private theorem Locked.claims_step (hs : s.Locked) (hd : s.Does supply (.step i) s')
    {job next : Job} (hj : s.job? i = some job) (hj' : s'.job? i = some next) (r : RegistryRef) :
    (∀ k, (s.Claims r k ↔ job.Claims s.store r k) ∧ (s'.Claims r k ↔ next.Claims s'.store r k)) ∨
    ((.registry r, .exclusive) ∉ job.held ∧ ∀ k, s'.Claims r k ↔ s.Claims r k) := by
  have hs' := hs.of_does hd
  by_cases hother : ∃ j, j ≠ i ∧ s.Holds j (.registry r) .exclusive
  · obtain ⟨j, hji, hheld⟩ := hother
    have hheld' := (hd.holds_kept (Ne.symm hji)).mpr hheld
    have hnot : (.registry r, .exclusive) ∉ job.held := fun h ↦
      hji (hs.unique hheld (hs.holds_of_held hj (by simp) h)).1.symm
    have hnot' : (.registry r, .exclusive) ∉ next.held := fun h ↦
      hji (hs'.unique hheld' (hs'.holds_of_held hj' (by simp) h)).1.symm
    refine .inr ⟨hnot, fun k ↦ ?_⟩
    have hroster := hs.roster_kept hd hheld (by simpa using Ne.symm hji)
    -- Only the call that makes the step has another job, which has nothing to do with the registry.
    have hsame {m : CallRef} {other : Job} (hm : s.job? m = some other)
        (hh : (.registry r, .exclusive) ∈ other.held) : s'.job? m = some other := by
      refine hd.job_kept hm ?_
      rintro ⟨⟩
      cases hj.symm.trans hm
      exact hnot hh
    have hback {m : CallRef} {other : Job} (hm : s'.job? m = some other)
        (hh : (.registry r, .exclusive) ∈ other.held) : s.job? m = some other := by
      by_cases hmi : m = i
      · subst hmi
        cases hj'.symm.trans hm
        exact absurd hh hnot'
      · obtain ⟨hm, -⟩ | ⟨_, ⟨⟩, -⟩ | ⟨_, _, hstep, -⟩ := hd.job_cases hm
        · exact hm
        · cases hstep
          exact absurd rfl hmi
    rw [Claims, Claims, hroster]
    constructor
    · rintro (⟨hk, hno⟩ | ⟨m, other, hm, ha⟩)
      · exact .inl ⟨hk, fun m other hm hh ↦ hno m other (hsame hm (Job.held_of_hides hh)) hh⟩
      · exact .inr ⟨m, other, hback hm (Job.held_of_adds ha), ha⟩
    · rintro (⟨hk, hno⟩ | ⟨m, other, hm, ha⟩)
      · exact .inl ⟨hk, fun m other hm hh ↦ hno m other (hback hm (Job.held_of_hides hh)) hh⟩
      · exact .inr ⟨m, other, hsame hm (Job.held_of_adds ha), ha⟩
  · have hfree (j : CallRef) (hji : j ≠ i) : ¬ s.Holds j (.registry r) .exclusive :=
      fun h ↦ hother ⟨j, hji, h⟩
    exact .inl fun k ↦ ⟨hs.claims_iff hj hfree k, hs'.claims_iff hj'
      (fun j hji h ↦ hfree j hji ((hd.holds_kept (Ne.symm hji)).mp h)) k⟩

/-- A step of one call keeps the index and the claims in agreement. -/
private theorem Matched.step (hm : s.Matched home) (hs : s.Sound) (hh : s.AtHome home)
    (hd : s.Does supply (.step i) s') {job : Job} (hj : s.job? i = some job) : s'.Matched home := by
  obtain ⟨instr, next, hn, hr, hj'⟩ := hd.job_step hj
  have hclaims := hs.locked.claims_step hd hj hj'
  have hknows : job.Knows s.store := by
    obtain ⟨call, hc, rfl⟩ := job?_eq_some.mp hj
    exact hs.knows hc
  have hin (r : RegistryRef) (k : Key) (hheld : (.registry r, .exclusive) ∈ job.held)
      (hk : job.Claims s.store r k) : (s.store.indexOf (home r)).contains k = true := by
    refine (hm.indexed _ k).mpr ⟨r, rfl, ?_⟩
    obtain h | ⟨hnot, -⟩ := hclaims r
    · exact (h k).1.mpr hk
    · exact absurd hheld hnot
  have hshift : Shift home s.store s'.store job next :=
    .of_run (hh i job hj) hknows (hm.tidy hj)
      (fun r k ha ↦ hin r k (Job.held_of_adds ha) (.inr ha)) hn hr
  have htidy {j : CallRef} {other : Job} (hjo : s'.job? j = some other) : other.Tidy s'.store := by
    obtain ⟨hjo, hne⟩ | ⟨_, ⟨⟩, -⟩ | ⟨_, _, ⟨⟩, hjb, hnb, hrb⟩ := hd.job_cases hjo
    · refine ⟨fun r k ha ↦ ?_, (hm.tidy hjo).orderly⟩
      have hheld := hs.locked.holds_of_held hjo (by simp) (Job.held_of_adds ha)
      rw [hs.locked.roster_kept hd hheld hne]
      exact (hm.tidy hjo).apart r k ha
    · cases hj.symm.trans hjb
      exact (hm.tidy hj).step (hh i job hj) hin hnb hrb
  cases hshift with
  | stay hindex hcl =>
    have hsame (r : RegistryRef) (k : Key) : s'.Claims r k ↔ s.Claims r k := by
      obtain h | ⟨-, h⟩ := hclaims r
      · rw [(h k).2, hcl, ← (h k).1]
      · exact h k
    refine ⟨fun t k ↦ ?_, fun h h' ↦ hm.single ((hsame _ _).mp h) ((hsame _ _).mp h'), htidy⟩
    simp only [hindex, hm.indexed, hsame]
  | bring r key hheld hfresh hindex hcl =>
    have hnew (q : RegistryRef) (k : Key) : s'.Claims q k ↔ s.Claims q k ∨ q = r ∧ k = key := by
      obtain h | ⟨hnot, h⟩ := hclaims q
      · rw [(h k).2, hcl, ← (h k).1]
      · rw [h k, or_iff_left]
        rintro ⟨rfl, -⟩
        exact hnot hheld
    have hunclaimed {q : RegistryRef} (hq : s.Claims q key) (hhome : home q = home r) : False := by
      have := (hm.indexed (home r) key).mpr ⟨q, hhome, hq⟩
      rw [hfresh] at this
      cases this
    refine ⟨fun t k ↦ ?_, fun {p q k} hp hq hhome ↦ ?_, htidy⟩
    · rw [hindex, hm.indexed]
      constructor
      · rintro (⟨q, hq, hk⟩ | ⟨rfl, rfl⟩)
        · exact ⟨q, hq, (hnew q k).mpr (.inl hk)⟩
        · exact ⟨r, rfl, (hnew r k).mpr (.inr ⟨rfl, rfl⟩)⟩
      · rintro ⟨q, hq, hk⟩
        obtain hk | ⟨rfl, rfl⟩ := (hnew q k).mp hk
        · exact .inl ⟨q, hq, hk⟩
        · exact .inr ⟨hq.symm, rfl⟩
    · obtain hp | ⟨rfl, rfl⟩ := (hnew p k).mp hp <;> obtain hq | ⟨rfl, hk⟩ := (hnew q k).mp hq
      · exact hm.single hp hq hhome
      · subst hk
        exact (hunclaimed hp hhome).elim
      · exact (hunclaimed hq hhome.symm).elim
      · rfl
  | lose r key hheld hclaimed hindex hcl =>
    have hnew (q : RegistryRef) (k : Key) : s'.Claims q k ↔ s.Claims q k ∧ ¬ (q = r ∧ k = key) := by
      obtain h | ⟨hnot, h⟩ := hclaims q
      · rw [(h k).2, hcl, ← (h k).1]
      · rw [h k, and_iff_left]
        rintro ⟨rfl, -⟩
        exact hnot hheld
    have hr : s.Claims r key := by
      obtain h | ⟨hnot, -⟩ := hclaims r
      · exact (h key).1.mpr hclaimed
      · exact absurd hheld hnot
    refine ⟨fun t k ↦ ?_, fun h h' ↦ hm.single ((hnew _ _).mp h).1 ((hnew _ _).mp h').1, htidy⟩
    rw [hindex, hm.indexed]
    constructor
    · rintro ⟨⟨q, rfl, hk⟩, hne⟩
      refine ⟨q, rfl, (hnew q k).mpr ⟨hk, ?_⟩⟩
      rintro ⟨rfl, rfl⟩
      exact hne ⟨rfl, rfl⟩
    · rintro ⟨q, rfl, hk⟩
      obtain ⟨hk, hne⟩ := (hnew q k).mp hk
      refine ⟨⟨q, rfl, hk⟩, ?_⟩
      rintro ⟨hhome, rfl⟩
      exact hne ⟨hm.single hk hr hhome, rfl⟩

/-- Any other action keeps them in agreement as well. -/
private theorem Matched.rest (hm : s.Matched home) (hd : s.Does supply action s')
    (hne : ∀ i, action ≠ .step i) : s'.Matched home := by
  obtain ⟨hindex, hroster⟩ := hd.views_kept hne
  have hback {j : CallRef} {job : Job} (hj : s'.job? j = some job) {r : RegistryRef} {k : Key}
      (hk : job.Adds r k ∨ job.Hides r k) : s.job? j = some job := by
    obtain ⟨hj, -⟩ | ⟨_, -, hr, -⟩ | ⟨_, _, hstep, -⟩ := hd.job_cases hj
    · exact hj
    · obtain ⟨ha, hh⟩ := Job.idle_keys_of_ofRequest? hr r k
      exact (hk.elim ha hh).elim
    · exact absurd hstep (hne j)
  have hclaims (r : RegistryRef) (k : Key) : s'.Claims r k ↔ s.Claims r k := by
    rw [Claims, Claims, hroster]
    constructor
    · rintro (⟨hk, hno⟩ | ⟨j, job, hj, ha⟩)
      · exact .inl ⟨hk, fun j job hj ↦ hno j job (hd.job_kept hj (hne j))⟩
      · exact .inr ⟨j, job, hback hj (.inl ha), ha⟩
    · rintro (⟨hk, hno⟩ | ⟨j, job, hj, ha⟩)
      · exact .inl ⟨hk, fun j job hj hh ↦ hno j job (hback hj (.inr hh)) hh⟩
      · exact .inr ⟨j, job, hd.job_kept hj (hne j), ha⟩
  refine ⟨fun t k ↦ ?_, fun h h' ↦ hm.single ((hclaims _ _).mp h) ((hclaims _ _).mp h'),
    fun {j job} hj ↦ ?_⟩
  · simp only [hindex, hm.indexed, hclaims]
  · obtain ⟨hj, -⟩ | ⟨_, -, hr, -⟩ | ⟨_, _, hstep, -⟩ := hd.job_cases hj
    · exact ⟨fun r k ha ↦ by rw [hroster]; exact (hm.tidy hj).apart r k ha, (hm.tidy hj).orderly⟩
    · exact ⟨fun r k ha ↦ ((Job.idle_keys_of_ofRequest? hr r k).1 ha).elim,
        Job.orderly_of_ofRequest? hr⟩
    · exact absurd hstep (hne j)

/-- What no call does later no call has done before. -/
theorem AtHome.of_does (hh : s'.AtHome home) (hd : s.Does supply action s') : s.AtHome home := by
  intro i job hj
  by_cases hstep : action = .step i
  · subst hstep
    obtain ⟨instr, next, hn, hr, hj'⟩ := hd.job_step hj
    have hnext := hh i next hj'
    cases job <;> obtain ⟨step, hp, rfl⟩ := Progress.map_eq_next.mp hn <;>
      obtain ⟨phase, -, rfl⟩ := Instr.run_map_eq_some.mp hr <;> exact hnext
  · exact hh i job (hd.job_kept hj hstep)

theorem AtHome.of_run {h : History} (hh : s'.AtHome home) (hr : s.run? h = some s') :
    s.AtHome home := by
  induction h generalizing s with
  | nil =>
    cases hr
    exact hh
  | cons e h ih =>
    obtain ⟨-, u, hu, hr⟩ := run?_cons_eq_some.mp hr
    exact (ih hr).of_does (does_of_act? hu)

theorem matched_withTables (limits : List Limits) : (withTables limits).Matched home := by
  have hjob (i : CallRef) : (withTables limits).job? i = none := by simp [job?, withTables]
  have hindex (t : TableRef) : (withTables limits).store.indexOf t = ∅ := by
    cases h : limits[t]? <;> simp [withTables, Store.withTables, Store.indexOf, h]
  have hroster (r : RegistryRef) : (withTables limits).store.rosterOf r = {} := rfl
  have hclaims (r : RegistryRef) (k : Key) : ¬ (withTables limits).Claims r k := by
    rintro (⟨hk, -⟩ | ⟨j, job, hj, -⟩)
    · rw [hroster] at hk
      simp [Roster.contains] at hk
    · rw [hjob] at hj
      cases hj
  refine ⟨fun t k ↦ ?_, fun h ↦ (hclaims _ _ h).elim, fun {i job} hj ↦ ?_⟩
  · simp [hindex, hclaims]
  · rw [hjob] at hj
    cases hj

/-- In every reachable service that uses registries at home, the index of each table agrees with the
claims of the registries used with it. -/
theorem Reachable.matched (hr : Reachable limits s) (hh : s.AtHome home) : s.Matched home := by
  suffices h : s.Sound ∧ (s.AtHome home → s.Matched home) from h.2 hh
  refine hr.induct (P := fun s ↦ s.Sound ∧ (s.AtHome home → s.Matched home))
    ⟨sound_withTables limits, fun _ ↦ matched_withTables limits⟩
    fun s supply action s' h ha hact ↦ ?_
  have hd := does_of_act? hact
  refine ⟨h.1.of_does ha hd, fun hh' ↦ ?_⟩
  have hh := hh'.of_does hd
  by_cases hstep : ∃ i, action = .step i
  · obtain ⟨i, rfl⟩ := hstep
    cases id hd with
    | tend hk _ => cases hk
    | @step _ call instr job store hc hn hrun =>
      exact (h.2 hh).step h.1 hh hd (job?_eq_some.mpr ⟨call, hc, rfl⟩)
  · exact (h.2 hh).rest hd fun i h ↦ hstep ⟨i, h⟩

/-! ### How many buffers a teardown releases -/

/-- A step of a teardown that misses no key does not change how many buffers it releases in all. -/
private theorem total?_step {d : Teardown} {phase next : Teardown.Phase}
    {step : Instr Teardown.Phase} {who : CallRef} {n : Nat} {u u' : Store}
    (ht : d.total? u phase = some n) (hn : d.progress phase = .next step)
    (hr : step.run supply who u = some (next, u'))
    (hnext : ∀ key sweep, next ≠ .reportMissing key sweep) : d.total? u' next = some n := by
  have hresume (sweep : Teardown.Sweep) :
      d.total? u' (.resume sweep) = some (sweep.released + sweep.todo.length) := by
    unfold Teardown.Phase.resume
    split
    · next h => simp [Teardown.total?, h]
    · next h => simp [Teardown.total?, h, Nat.add_assoc]
  cases phase with
  | drain first =>
    cases hn
    obtain ⟨-, rfl, -⟩ := Instr.run_drain.mp hr
    cases ht
    rw [hresume, Teardown.Sweep.start, Roster.length_toList, Nat.zero_add]
  | find key sweep =>
    cases hn
    obtain ⟨-, rfl, -⟩ := Instr.run_readIndex.mp hr
    split at hnext
    · exact ht
    · exact absurd rfl (hnext key sweep)
  | lockContent key b sweep =>
    cases hn
    obtain ⟨-, _, -, rfl, -⟩ := Instr.run_acquire.mp hr
    exact ht
  | erase key b sweep =>
    cases hn
    obtain ⟨-, rfl, -⟩ := Instr.run_erase.mp hr
    exact ht
  | dispose key b sweep =>
    cases hn
    obtain ⟨-, rfl, -⟩ := Instr.run_dispose.mp hr
    exact ht
  | unlockContent key b sweep =>
    cases hn
    obtain ⟨-, rfl, -⟩ := Instr.run_release.mp hr
    rw [hresume, ← ht]
    simp only [Teardown.total?, Teardown.Sweep.take, Option.some.injEq]
    omega
  | unlockRegistry sweep | unlockTable sweep =>
    cases hn
    obtain ⟨-, rfl, -⟩ := Instr.run_release.mp hr
    exact ht
  | countReleased sweep =>
    cases hn
    obtain ⟨-, rfl, -⟩ := Instr.run_count.mp hr
    split <;> exact ht
  | countClosed sweep =>
    cases hn
    obtain ⟨-, rfl, -⟩ := Instr.run_count.mp hr
    exact ht
  | report sweep =>
    cases hn
    obtain ⟨rfl, -⟩ := Instr.run_log.mp hr
    exact ht
  | ended o => cases hn
  | _ => cases ht

/-- Whatever happens, a teardown that misses no key goes on to release the same number of
buffers. -/
private theorem Reachable.total?_run {h : History} {d : Teardown} {phase : Teardown.Phase} {n : Nat}
    (hr : Reachable limits s) (hj : s.job? i = some (.tearingDown d phase))
    (ht : d.total? s.store phase = some n) (hrun : s.run? h = some s') (hh : s'.AtHome home) :
    ∃ last, s'.job? i = some (.tearingDown d last) ∧ d.total? s'.store last = some n := by
  induction h generalizing s phase with
  | nil =>
    cases hrun
    exact ⟨phase, hj, ht⟩
  | cons e h ih =>
    obtain ⟨ha, u, hu, hrun⟩ := run?_cons_eq_some.mp hrun
    have hd := does_of_act? hu
    have hru := hr.act ha hu
    by_cases hstep : e.2 = .step i
    · rw [hstep] at hd
      obtain ⟨step, last, hp, hlast, hj'⟩ := hd.teardown_step hj
      have hfound := ((hru.matched (hh.of_run hrun)).tidy hj').orderly d last rfl
      exact ih hru hj' (total?_step ht hp hlast hfound.2) hrun
    · refine ih hru (hd.job_kept hj hstep) ?_ hrun
      cases phase with
      | drain first =>
        have hheld : s.Holds i (.registry d.registry) .exclusive :=
          hr.sound.locked.holds_of_held hj (by simp) (by simp [Job.held, Teardown.held])
        rw [Teardown.total?, hr.sound.locked.roster_kept hd hheld hstep]
        exact ht
      | ended o => cases o <;> exact ht
      | _ => exact ht

/-! ### Where index and rosters differ -/

/-- Whether an allocation has put a key into the index and has still to record it; it holds the
registry. -/
def Brings (s : Service) (t : TableRef) (k : Key) : Prop :=
  ∃ i a b phase, s.job? i = some (.allocating a phase) ∧
    (phase = .unlockTable b k ∨ phase = .enlist b k) ∧ a.table = t ∧
    s.Holds i (.registry a.registry) .exclusive

/-- Whether a teardown has drained a key and has still to take it out of the index; it holds the
registry and the table. -/
def Sweeps (s : Service) (t : TableRef) (k : Key) : Prop :=
  ∃ i d phase, s.job? i = some (.tearingDown d phase) ∧ k ∈ phase.pending ∧ d.table = t ∧
    s.Holds i (.registry d.registry) .exclusive ∧ s.Holds i (.table t) .exclusive

/-- Whether a free has taken a key out of the index and has still to forget it; it holds the
registry and the table. -/
def Forgets (s : Service) (t : TableRef) (r : RegistryRef) (k : Key) : Prop :=
  ∃ i f b, s.job? i = some (.freeing f (.forget b)) ∧ f.key = k ∧ f.registry = r ∧ f.table = t ∧
    s.Holds i (.registry r) .exclusive ∧ s.Holds i (.table t) .exclusive

/-- A key that some job adds to an index is brought or swept. -/
private theorem Reachable.brings_or_sweeps (hr : Reachable limits s) (hh : s.AtHome home)
    {job : Job} {r : RegistryRef} {k : Key} (hj : s.job? i = some job) (ha : job.Adds r k) :
    s.Brings (home r) k ∨ s.Sweeps (home r) k := by
  have hheld := hr.sound.locked.holds_of_held hj (by simp) (Job.held_of_adds ha)
  have hhome := hh i job hj
  cases job with
  | allocating a phase =>
    left
    cases phase with
    | unlockTable b key =>
      obtain ⟨rfl, rfl⟩ := ha
      exact ⟨i, a, b, _, hj, .inl rfl, hhome, hheld⟩
    | enlist b key =>
      obtain ⟨rfl, rfl⟩ := ha
      exact ⟨i, a, b, _, hj, .inr rfl, hhome, hheld⟩
    | _ => cases ha
  | tearingDown d phase =>
    right
    obtain ⟨rfl, hk⟩ := ha
    rw [← show d.table = home d.registry from hhome]
    refine ⟨i, d, phase, hj, hk, rfl, hheld, hr.sound.locked.holds_of_held hj (by simp) ?_⟩
    cases phase <;> simp [Teardown.Phase.pending] at hk <;> simp [Job.held, Teardown.held]
  | _ => cases ha

/-- A key that some job hides is about to be forgotten. -/
private theorem Reachable.forgets (hr : Reachable limits s) (hh : s.AtHome home) {job : Job}
    {r : RegistryRef} {k : Key} (hj : s.job? i = some job) (hhide : job.Hides r k) :
    s.Forgets (home r) r k ∧ (s.store.indexOf (home r)).contains k = false ∧
      s.Holds i (.table (home r)) .exclusive := by
  have hheld := hr.sound.locked.holds_of_held hj (by simp) (Job.held_of_hides hhide)
  have hhome := hh i job hj
  have hknows : job.Knows s.store := by
    obtain ⟨call, hc, rfl⟩ := job?_eq_some.mp hj
    exact hr.sound.knows hc
  cases job with
  | freeing f phase =>
    cases phase with
    | forget b =>
      obtain ⟨rfl, rfl⟩ := hhide
      rw [← show f.table = home f.registry from hhome]
      have htable : s.Holds i (.table f.table) .exclusive :=
        hr.sound.locked.holds_of_held hj (by simp) (by simp [Job.held, Removal.held])
      exact ⟨⟨i, f, b, hj, rfl, rfl, rfl, hheld, htable⟩, Index.not_contains_iff.mpr hknows.1,
        htable⟩
    | _ => cases hhide
  | _ => cases hhide

/-- In a service that uses every registry with one table only and changes rosters only through
tables, index and rosters agree. While nobody holds one of the registries used with a table, or the
table alone, its index holds exactly the keys of their rosters, no two of which share a key. At any
time a key in the index that is in none of the rosters is one that an allocation is about to record
or a teardown is about to take out, and a key in a roster that is not in the index is one that a
free is about to forget. So a teardown never misses a key, and ends with the number of keys it
drains. -/
theorem index_agrees_with_rosters (hr : Reachable limits s) (hh : s.AtHome home) :
    (∀ t, (∀ r i mode, home r = t → ¬ s.Holds i (.registry r) mode) →
      (∀ i, ¬ s.Holds i (.table t) .exclusive) → ∀ k,
        (s.store.indexOf t).contains k = true ↔
          ∃ r, home r = t ∧ (s.store.rosterOf r).contains k = true) ∧
    (∀ r q k, home r = home q → (s.store.rosterOf r).contains k = true →
      (s.store.rosterOf q).contains k = true → r = q) ∧
    (∀ t k, (s.store.indexOf t).contains k = true →
      (∃ r, home r = t ∧ (s.store.rosterOf r).contains k = true) ∨ s.Brings t k ∨ s.Sweeps t k) ∧
    (∀ r k, (s.store.rosterOf r).contains k = true →
      (s.store.indexOf (home r)).contains k = true ∨ s.Forgets (home r) r k) ∧
    (∀ i d key sweep, s.job? i ≠ some (.tearingDown d (.reportMissing key sweep))) ∧
    (∀ i d first, s.job? i = some (.tearingDown d (.drain first)) → ∀ h s', s.run? h = some s' →
      s'.AtHome home → ∀ o, s'.outcome? i = some o →
        o = .number (s.store.rosterOf d.registry).size) := by
  have hm := hr.matched hh
  have hindexed (t : TableRef) (k : Key) (hk : (s.store.indexOf t).contains k = true) :
      (∃ r, home r = t ∧ (s.store.rosterOf r).contains k = true) ∨ s.Brings t k ∨ s.Sweeps t k := by
    obtain ⟨r, rfl, ⟨hk, -⟩ | ⟨i, job, hj, ha⟩⟩ := (hm.indexed t k).mp hk
    · exact .inl ⟨r, rfl, hk⟩
    · exact .inr (hr.brings_or_sweeps hh hj ha)
  have hlisted (r : RegistryRef) (k : Key) (hk : (s.store.rosterOf r).contains k = true) :
      s.Claims r k ∨ ∃ i job, s.job? i = some job ∧ job.Hides r k := by
    by_cases hhide : ∃ i job, s.job? i = some job ∧ job.Hides r k
    · exact .inr hhide
    · exact .inl (.inl ⟨hk, fun i job hj h ↦ hhide ⟨i, job, hj, h⟩⟩)
  have hrosters (r : RegistryRef) (k : Key) (hk : (s.store.rosterOf r).contains k = true) :
      (s.store.indexOf (home r)).contains k = true ∨ s.Forgets (home r) r k := by
    obtain hc | ⟨i, job, hj, hhide⟩ := hlisted r k hk
    · exact .inl ((hm.indexed _ k).mpr ⟨r, rfl, hc⟩)
    · exact .inr (hr.forgets hh hj hhide).1
  refine ⟨fun t hreg htable k ↦ ⟨fun hk ↦ ?_, ?_⟩, fun r q k hhome hk hq ↦ ?_, hindexed, hrosters,
    fun i d key sweep hj ↦ ?_, fun i d first hj h s' hrun hh' o ho ↦ ?_⟩
  · obtain hk | ⟨i, a, b, phase, hj, -, rfl, hheld⟩ | ⟨i, d, phase, -, -, rfl, -, hheld⟩ :=
      hindexed t k hk
    · exact hk
    · exact absurd hheld (hreg _ i _ (hh i _ hj).symm)
    · exact absurd hheld (htable i)
  · rintro ⟨r, rfl, hk⟩
    obtain hk | ⟨i, f, b, -, -, -, -, -, hheld⟩ := hrosters r k hk
    · exact hk
    · exact absurd hheld (htable i)
  · obtain hc | ⟨i, job, hj, hhide⟩ := hlisted r k hk <;>
      obtain hc' | ⟨j, other, hj', hhide'⟩ := hlisted q k hq
    · exact hm.single hc hc' hhome
    · have hnot := (hr.forgets hh hj' hhide').2.1
      rw [(hm.indexed _ k).mpr ⟨r, hhome, hc⟩] at hnot
      cases hnot
    · have hnot := (hr.forgets hh hj hhide).2.1
      rw [(hm.indexed _ k).mpr ⟨q, hhome.symm, hc'⟩] at hnot
      cases hnot
    · -- Two frees that are about to forget the key would both hold the table alone.
      have hti := (hr.forgets hh hj hhide).2.2
      have htj := (hr.forgets hh hj' hhide').2.2
      rw [← hhome] at htj
      obtain rfl := (hr.sound.locked.unique hti htj).1
      cases hj.symm.trans hj'
      cases job with
      | freeing f phase =>
        cases phase with
        | forget b => exact hhide.1.trans hhide'.1.symm
        | _ => cases hhide
      | _ => cases hhide
  · exact ((hm.tidy hj).orderly d _ rfl).2 key sweep rfl
  · obtain ⟨last, hlast, htotal⟩ := hr.total?_run hj rfl hrun hh'
    obtain ⟨call, hc, hjob⟩ := job?_eq_some.mp hlast
    have hended : call.job.progress = .ended o := by
      rw [← Job.outcome?_eq_some]
      simpa [outcome?, hc] using ho
    rw [hjob] at hended
    cases last <;> cases hended
    cases o <;> cases htotal
    rfl

/-- A session with one buffer is torn down; the roster is about to be drained. -/
def drainedLater : History := .allocated ⟨7⟩ 4 4 ++ .call (.teardown 0 0) 2 3

/-- The buffer is in the index and in the roster, and the teardown ends with one. -/
theorem teardown_counts_one : ∃ s s' : Service, (withTables [{}]).run? drainedLater = some s ∧
    s.run? (List.replicate 11 (.addressable, .step 2)) = some s' ∧
    ((s.store.indexOf 0).contains ⟨⟨7⟩, ⟨0⟩⟩ = true ∨
      s.Forgets 0 0 ⟨⟨7⟩, ⟨0⟩⟩) ∧ s'.outcome? 2 = some (.number 1) := by
  have hrun : (((withTables [{}]).run? drainedLater).bind fun s ↦
      (s.run? (List.replicate 11 (.addressable, .step 2))).map fun s' ↦
        (s.job? 2, (s.store.rosterOf 0).toList, s'.calls.all fun call ↦ call.job.AtHome fun _ ↦ 0,
          (s'.outcome? 2).isSome)) =
      some (some (.tearingDown ⟨0, 0, ⟨7⟩⟩ (.drain true)), [⟨⟨7⟩, ⟨0⟩⟩], true, true) := by
    decide +kernel
  obtain ⟨s, hs, h⟩ := Option.bind_eq_some_iff.mp hrun
  obtain ⟨s', hs', h⟩ := Option.map_eq_some_iff.mp h
  simp only [Prod.mk.injEq] at h
  obtain ⟨hjob, hroster, hall, hended⟩ := h
  have hhome' : s'.AtHome fun _ ↦ 0 := by
    intro i job hj
    obtain ⟨call, hc, rfl⟩ := job?_eq_some.mp hj
    obtain ⟨hi, rfl⟩ := Array.getElem?_eq_some_iff.mp hc
    exact of_decide_eq_true (Array.all_eq_true.mp hall i hi)
  have hsize : (s.store.rosterOf 0).size = 1 := by
    rw [← Roster.length_toList, hroster]
    rfl
  have hkey : (s.store.rosterOf 0).contains ⟨⟨7⟩, ⟨0⟩⟩ = true := by
    rw [← Roster.mem_toList, hroster]
    exact List.mem_singleton_self _
  obtain ⟨-, -, -, hlisted, -, hends⟩ := index_agrees_with_rosters ⟨_, hs⟩ (hhome'.of_run hs')
  obtain ⟨o, ho⟩ := Option.isSome_iff_exists.mp hended
  have hnumber := hends 2 _ true hjob _ s' hs' hhome' o ho
  rw [hsize] at hnumber
  exact ⟨s, s', hs, hs', hlisted 0 _ hkey, hnumber ▸ ho⟩

end Service

end SessionBuffers
