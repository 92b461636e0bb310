import SessionBuffers.Proofs.Interference

/-!
# The life of a storage

An allocation sets storage up and puts it into an index; a free or a teardown takes it out and
gives it up. Between these steps the storage belongs to the call that makes them (`Job.owned?`),
and from the moment it is in the index its allocation keeps its handle (`Job.kept?`). `Moves` says
what one step can make of all this.
-/

namespace SessionBuffers

/-! ### What a job has to do with storage -/

namespace Job

/-- The handle of an allocation that has put its key into the index. -/
def kept? : Job → Option (Allocation × Handle)
  | allocating a (.unlockTable b key) | allocating a (.enlist b key)
  | allocating a (.unlockRegistry b key) | allocating a (.unlockContent b key)
  | allocating a (.count b key) | allocating a (.report b key) => some (a, ⟨key, b⟩)
  | allocating a (.ended (.handle h)) => some (a, h)
  | _ => none

/-- The storage an allocation has set up, while it is not abandoned for good. -/
def made? : Job → Option (Allocation × StorageRef)
  | allocating a (.lockContent b) | allocating a (.lockRegistry b) | allocating a (.lockTable b)
  | allocating a (.reserve b) | allocating a (.draw b) | allocating a (.insert b _)
  | allocating a (.abandonRegistry b _) | allocating a (.abandonTable b _)
  | allocating a (.abandonContent b _) => some (a, b)
  | job => job.kept?.map fun k ↦ (k.1, k.2.storage)

/-- The storage that is in no index and that this job still has to put there or to give up. -/
def owned? : Job → Option StorageRef
  | allocating _ (.lockContent b) | allocating _ (.lockRegistry b) | allocating _ (.lockTable b)
  | allocating _ (.reserve b) | allocating _ (.draw b) | allocating _ (.insert b _)
  | allocating _ (.abandonRegistry b _) | allocating _ (.abandonTable b _)
  | allocating _ (.abandonContent b _) => some b
  | freeing _ (.forget b) | freeing _ (.unlockRegistry b) | freeing _ (.unlockTable b)
  | freeing _ (.dispose b) => some b
  | tearingDown _ (.dispose _ b _) => some b
  | _ => none

/-- The guard a job has been granted: it has locked the content and found it live. -/
def granted? : Job → Option Guard
  | lookingUp l (.unlockTable b) | lookingUp l (.count b) => some ⟨⟨l.key, b⟩, l.mode⟩
  | lookingUp _ (.ended (.guard g)) | accessing _ (.ended (.guard g)) => some g
  | _ => none

/-- The handle a job uses: a lookup that of the key it has found, an access that it was given. -/
def used? : Job → Option Handle
  | lookingUp l (.lockContent b) => some ⟨l.key, b⟩
  | accessing a _ => some a.handle
  | job => job.granted?.map Guard.handle

/-- What a job has read under locks that it still holds. -/
def Knows (s : Store) : Job → Prop
  | lookingUp l (.lockContent b) => (s.indexOf l.table)[l.key]? = some b
  | freeing f (.checkOwner b) => (s.indexOf f.table)[f.key]? = some b
  | freeing f (.lockContent b) | freeing f (.erase b) =>
    (s.indexOf f.table)[f.key]? = some b ∧ (s.rosterOf f.registry).contains f.key = true
  | freeing f (.forget _) =>
    (s.indexOf f.table)[f.key]? = none ∧ (s.rosterOf f.registry).contains f.key = true
  | tearingDown d (.lockContent key b _) | tearingDown d (.erase key b _) =>
    (s.indexOf d.table)[key]? = some b
  | allocating a (.unlockTable b key) => (s.indexOf a.table)[key]? = some b
  | _ => True

/-- What a job knows stays true while the places it has locked do not change. -/
theorem Knows.congr {s s' : Store} {job : Job} (h : job.Knows s)
    (hi : ∀ t mode, (.table t, mode) ∈ job.held → s'.indexOf t = s.indexOf t)
    (hr : ∀ r mode, (.registry r, mode) ∈ job.held → s'.rosterOf r = s.rosterOf r) :
    job.Knows s' := by
  cases job with
  | lookingUp l phase =>
    cases phase with
    | lockContent b =>
      rw [Knows, hi l.table .shared (by simp [held, Lookup.held])]
      exact h
    | _ => trivial
  | freeing f phase =>
    cases phase with
    | checkOwner b =>
      rw [Knows, hi f.table .exclusive (by simp [held, Removal.held])]
      exact h
    | lockContent b | erase b | forget b =>
      rw [Knows, hi f.table .exclusive (by simp [held, Removal.held]),
        hr f.registry .exclusive (by simp [held, Removal.held])]
      exact h
    | _ => trivial
  | tearingDown d phase =>
    cases phase with
    | lockContent key b s | erase key b s =>
      rw [Knows, hi d.table .exclusive (by simp [held, Teardown.held])]
      exact h
    | _ => trivial
  | allocating a phase =>
    cases phase with
    | unlockTable b key =>
      rw [Knows, hi a.table .exclusive (by simp [held, Allocation.held])]
      exact h
    | _ => trivial
  | _ => trivial

/-- A job holds the content of the guard it has been granted. -/
theorem held_of_granted? {job : Job} {g : Guard} (h : job.granted? = some g) :
    (.content g.handle.storage, g.mode) ∈ job.held := by
  unfold granted? at h
  split at h <;> cases h <;> simp [held, Lookup.held, Access.held]

/-- What a job owns it also holds alone, but for fresh storage it has not locked yet. -/
theorem held_of_owned? {job : Job} {b : StorageRef} (h : job.owned? = some b) :
    (.content b, .exclusive) ∈ job.held ∨ ∃ a, job = allocating a (.lockContent b) := by
  unfold owned? at h
  split at h <;> cases h <;> simp [held, Allocation.held, Removal.held, Teardown.held]

/-- A request begins with nothing to do with storage but for the handle it is given. -/
theorem idle_of_ofRequest? {s : Store} {request : Request} {job : Job}
    (h : ofRequest? s request = some job) :
    job.owned? = none ∧ job.made? = none ∧ job.granted? = none ∧ (∀ s, job.Knows s) ∧
      ∀ b, job.used? = some b → ∃ mode, request = .access b mode := by
  cases ofRequest?_eq_some.mp h <;> simp [owned?, made?, kept?, granted?, used?, Knows]

/-- A job that has ended has nothing left to know. -/
theorem knows_of_outcome? {job : Job} {o : Outcome} (h : job.outcome? = some o) (s : Store) :
    job.Knows s := by
  rw [outcome?_eq_some] at h
  cases job with
  | lookingUp _ phase | freeing _ phase | tearingDown _ phase | allocating _ phase =>
    cases phase <;> cases h
    trivial
  | _ => trivial

/-- The guard that a job ends with has been granted. -/
theorem Proper.granted? {job : Job} {g : Guard} (hp : job.Proper)
    (ho : job.outcome? = some (.guard g)) : job.granted? = some g := by
  obtain ⟨l, rfl, -⟩ | ⟨a, rfl, -⟩ := hp.guard ho
  · rfl
  · rfl

/-- The handle of a guard that has been granted is in use. -/
theorem used?_of_granted? {job : Job} {g : Guard} (h : job.granted? = some g)
    (hp : job.Proper) : job.used? = some g.handle := by
  unfold granted? at h
  split at h <;> cases h
  · rfl
  · rfl
  · rfl
  · obtain ha | ha := hp <;> cases ha
    rfl

/-- What an allocation keeps it has set up. -/
theorem made?_of_kept? {job : Job} {a : Allocation} {h : Handle} (hk : job.kept? = some (a, h)) :
    job.made? = some (a, h.storage) := by
  unfold kept? at hk
  split at hk <;> cases hk <;> rfl

theorem kept?_of_owned? {job : Job} {b : StorageRef} (h : job.owned? = some b) :
    job.kept? = none := by
  unfold owned? at h
  split at h <;> cases h <;> rfl

end Job

/-! ### Roles from step to step -/

/-- How a step of a job can change indexes and content, and what the job has to do with storage. -/
structure Moves (s s' : Store) (job job' : Job) : Prop where
  /-- Only an allocation puts anything into an index, and what it owned. -/
  index : ∀ {t : TableRef} {key : Key} {b : StorageRef}, (s'.indexOf t)[key]? = some b →
    (s.indexOf t)[key]? = some b ∨ job.owned? = some b ∧ job'.owned? = none ∧
      ∃ a, job'.kept? = some (a, ⟨key, b⟩) ∧ a.table = t
  /-- Only content that a job owned is given up. -/
  content : ∀ {b : StorageRef}, s.Has (.content b) → s'.contentOf b = s.contentOf b ∨
    job.owned? = some b ∧ job'.owned? = none ∧ job'.kept? = job.kept? ∧ job'.granted? = none ∧
      (s'.contentOf b).released = true
  /-- A job comes to own what it has just set up, or what it has just taken out of an index. -/
  owned : ∀ {b : StorageRef}, job'.owned? = some b → job.owned? = some b ∨
    (¬ s.Has (.content b) ∧ (s'.contentOf b).released = false) ∨
    ∃ (t : TableRef) (key : Key), (s.indexOf t)[key]? = some b ∧ (s'.indexOf t)[key]? = none
  /-- What an allocation sets up is zeroed and of the sizes asked for. -/
  made : ∀ {a : Allocation} {b : StorageRef}, job'.made? = some (a, b) → job.made? = some (a, b) ∨
    ¬ s.Has (.content b) ∧ s'.Has (.content b) ∧ s'.contentOf b = .zeroed a.user a.kernel
  kept : ∀ {k : Allocation × Handle}, job.kept? = some k → job'.kept? = some k
  used : ∀ {h : Handle}, job'.used? = some h → job.used? = some h ∨
    ∃ t : TableRef, (s.indexOf t)[h.key]? = some h.storage
  /-- Content is granted where an index leads to it, or where it is seen to be live. -/
  granted : ∀ {g : Guard}, job'.granted? = some g → job.granted? = some g ∨
    (∃ t : TableRef, (s.indexOf t)[g.handle.key]? = some g.handle.storage) ∨
    (s.contentOf g.handle.storage).released = false

/-- Whether a job has nothing to do with storage that another had not. -/
structure Job.Retains (job job' : Job) : Prop where
  owned : ∀ b, job'.owned? = some b → job.owned? = some b
  made : ∀ k, job'.made? = some k → job.made? = some k
  kept : ∀ k, job.kept? = some k → job'.kept? = some k
  used : ∀ h, job'.used? = some h → job.used? = some h
  granted : ∀ g, job'.granted? = some g → job.granted? = some g

namespace Moves

variable {supply : Supply} {who : CallRef} {s s' : Store} {job job' : Job} {instr : Instr Job}

/-- A step that leaves indexes and content alone, and its job with what it had. -/
theorem of_retains (hr : instr.run supply who s = some (job', s'))
    (hi : ∀ t index, instr.onIndex t index = index)
    (hc : ∀ b content, instr.onContent b content = content) (h : instr.Always job.Retains) :
    Moves s s' job job' := by
  have hk := Instr.changes_of_run hr
  have h := h.of_run hr
  exact
    { index := fun hb ↦ .inl (by rwa [hk.index, hi] at hb)
      content := fun {b} hb ↦ .inl (by rw [hk.content b hb, hc])
      owned := fun hb ↦ .inl (h.owned _ hb)
      made := fun hb ↦ .inl (h.made _ hb)
      kept := h.kept _
      used := fun hb ↦ .inl (h.used _ hb)
      granted := fun hb ↦ .inl (h.granted _ hb) }

theorem allocation {a : Allocation} {phase : Allocation.Phase} {step : Instr Allocation.Phase}
    (hn : a.progress phase = .next step)
    (hr : (step.map (.allocating a)).run supply who s = some (job', s')) :
    Moves s s' (.allocating a phase) job' := by
  cases phase with
  | checkLimits =>
    cases hn
    refine of_retains hr (fun _ _ ↦ rfl) (fun _ _ ↦ rfl) fun limits ↦ ?_
    dsimp only [Function.comp]
    split <;> constructor <;> simp [Job.owned?, Job.made?, Job.kept?, Job.used?, Job.granted?]
  | provide =>
    cases hn
    have hk := Instr.changes_of_run hr
    obtain ⟨-, rfl, rfl⟩ | ⟨-, rfl, rfl⟩ := Instr.run_provide.mp hr
    · have hnot : ¬ s.Has (.content s.storages.size) := by simp [Store.has_content]
      refine
        { index := fun h ↦ .inl (by rwa [hk.index] at h)
          content := fun h ↦ .inl (hk.content _ h)
          owned := fun h ↦ .inr (.inl ?_)
          made := fun h ↦ .inr ?_
          kept := fun h ↦ by simp [Job.kept?] at h
          used := fun h ↦ by simp [Job.used?, Job.granted?] at h
          granted := fun h ↦ by simp [Job.granted?] at h }
      · cases h
        exact ⟨hnot, by simp [Store.contentOf, Content.zeroed]⟩
      · cases h
        exact ⟨hnot, by simp [Store.has_content], by simp [Store.contentOf]⟩
    · constructor <;> simp [Job.owned?, Job.made?, Job.kept?, Job.used?, Job.granted?]
  | reserve b =>
    cases hn
    refine of_retains hr (fun _ _ ↦ rfl) (fun _ _ ↦ rfl) ⟨?_, ?_⟩ <;> constructor <;>
      simp [Job.owned?, Job.made?, Job.kept?, Job.used?, Job.granted?]
  | draw b =>
    cases hn
    refine of_retains hr (fun _ _ ↦ rfl) (fun _ _ ↦ rfl) fun id ↦ ?_
    constructor <;> simp [Job.owned?, Job.made?, Job.kept?, Job.used?, Job.granted?]
  | insert b key =>
    cases hn
    have hk := Instr.changes_of_run hr
    obtain ⟨-, ⟨hc, rfl, rfl⟩ | ⟨hc, rfl, -⟩⟩ := Instr.run_insert.mp hr
    · constructor <;> simp [Job.owned?, Job.made?, Job.kept?, Job.used?, Job.granted?]
    · refine
        { index := fun {t k c} h ↦ ?_
          content := fun h ↦ .inl (hk.content _ h)
          owned := fun h ↦ by simp [Job.owned?] at h
          made := fun h ↦ .inl (by simpa [Job.made?, Job.kept?] using h)
          kept := fun h ↦ by simp [Job.kept?] at h
          used := fun h ↦ by simp [Job.used?, Job.granted?] at h
          granted := fun h ↦ by simp [Job.granted?] at h }
      rw [hk.index] at h
      by_cases ht : a.table = t
      · subst ht
        simp only [Instr.map, Instr.onIndex, hc, if_true, Bool.false_eq_true, if_false,
          Index.getElem?_insert] at h
        split at h
        · next he =>
          cases h
          exact .inr ⟨rfl, rfl, a, by simp [Job.kept?, he], rfl⟩
        · exact .inl h
      · simp only [Instr.map, Instr.onIndex, ht, if_false] at h
        exact .inl h
  | _ =>
    cases hn <;> refine of_retains hr (fun _ _ ↦ rfl) (fun _ _ ↦ rfl) ?_ <;> constructor <;>
      simp [Job.owned?, Job.made?, Job.kept?, Job.used?, Job.granted?]

/-- A step that takes storage out of an index and makes it the job's own. -/
private theorem erasure {t : TableRef} {key : Key} {b : StorageRef} {next : Job}
    (hr : (Instr.erase t key next).run supply who s = some (job', s'))
    (hb : (s.indexOf t)[key]? = some b) (ho : next.owned? = some b) (hm : next.made? = none)
    (hk : job.kept? = none) (hu : next.used? = none) (hg : next.granted? = none) :
    Moves s s' job job' := by
  have hc := Instr.changes_of_run hr
  obtain ⟨-, rfl, -⟩ := Instr.run_erase.mp hr
  have hi (u : TableRef) (k : Key) :
      (s'.indexOf u)[k]? = if t = u ∧ key = k then none else (s.indexOf u)[k]? := by
    rw [hc.index, Instr.onIndex]
    by_cases hu : t = u
    · simp [hu, Index.getElem?_erase]
    · simp [hu]
  exact
    { index := fun {u k c} h ↦ by
        rw [hi] at h
        split at h
        · cases h
        · exact .inl h
      content := fun h ↦ .inl (hc.content _ h)
      owned := fun {c} h ↦ by
        rw [ho] at h
        cases h
        exact .inr (.inr ⟨t, key, hb, by simp [hi]⟩)
      made := fun h ↦ by simp [hm] at h
      kept := fun h ↦ by simp [hk] at h
      used := fun h ↦ by simp [hu] at h
      granted := fun h ↦ by simp [hg] at h }

/-- A step that gives up content the job owns. -/
private theorem disposal {b : StorageRef} {next : Job}
    (hr : (Instr.dispose b next).run supply who s = some (job', s'))
    (hb : job.owned? = some b) (ho : next.owned? = none) (hm : next.made? = none)
    (hk : next.kept? = job.kept?) (hu : next.used? = none) (hg : next.granted? = none) :
    Moves s s' job job' := by
  have hc := Instr.changes_of_run hr
  obtain ⟨-, rfl, -⟩ := Instr.run_dispose.mp hr
  exact
    { index := fun h ↦ .inl (by rwa [hc.index] at h)
      content := fun {c} h ↦ by
        rw [hc.content c h, Instr.onContent]
        split
        · next he =>
          subst he
          exact .inr ⟨hb, ho, hk, hg, rfl⟩
        · exact .inl rfl
      owned := fun h ↦ by simp [ho] at h
      made := fun h ↦ by simp [hm] at h
      kept := fun h ↦ hk ▸ h
      used := fun h ↦ by simp [hu] at h
      granted := fun h ↦ by simp [hg] at h }

theorem removal {f : Removal} {phase : Removal.Phase} {step : Instr Removal.Phase}
    (h : Job.Knows s (.freeing f phase)) (hn : f.progress phase = .next step)
    (hr : (step.map (.freeing f)).run supply who s = some (job', s')) :
    Moves s s' (.freeing f phase) job' := by
  cases phase with
  | find =>
    cases hn
    refine of_retains hr (fun _ _ ↦ rfl) (fun _ _ ↦ rfl) fun index ↦ ?_
    dsimp only [Function.comp]
    split <;> constructor <;> simp [Job.owned?, Job.made?, Job.kept?, Job.used?, Job.granted?]
  | checkOwner b =>
    cases hn
    refine of_retains hr (fun _ _ ↦ rfl) (fun _ _ ↦ rfl) fun roster ↦ ?_
    dsimp only [Function.comp]
    split <;> constructor <;> simp [Job.owned?, Job.made?, Job.kept?, Job.used?, Job.granted?]
  | erase b =>
    cases hn
    exact erasure hr h.1 rfl rfl rfl rfl rfl
  | forget b =>
    cases hn
    refine of_retains hr (fun _ _ ↦ rfl) (fun _ _ ↦ rfl) fun found ↦ ?_
    constructor <;> simp [Job.owned?, Job.made?, Job.kept?, Job.used?, Job.granted?]
  | dispose b =>
    cases hn
    exact disposal hr rfl rfl rfl rfl rfl rfl
  | _ =>
    cases hn <;> refine of_retains hr (fun _ _ ↦ rfl) (fun _ _ ↦ rfl) ?_ <;> constructor <;>
      simp [Job.owned?, Job.made?, Job.kept?, Job.used?, Job.granted?]

private theorem retains_resume (hk : job.kept? = none) (d : Teardown) (sweep : Teardown.Sweep) :
    job.Retains (.tearingDown d (.resume sweep)) := by
  unfold Teardown.Phase.resume
  split <;> constructor <;> simp [hk, Job.owned?, Job.made?, Job.used?, Job.granted?] <;>
    simp [Job.kept?]

theorem teardown {d : Teardown} {phase : Teardown.Phase} {step : Instr Teardown.Phase}
    (h : Job.Knows s (.tearingDown d phase)) (hn : d.progress phase = .next step)
    (hr : (step.map (.tearingDown d)).run supply who s = some (job', s')) :
    Moves s s' (.tearingDown d phase) job' := by
  cases phase with
  | finish c =>
    cases hn
    refine of_retains hr (fun _ _ ↦ rfl) (fun _ _ ↦ rfl) ⟨?_, ?_⟩ <;> constructor <;>
      simp [Job.owned?, Job.made?, Job.kept?, Job.used?, Job.granted?]
  | close =>
    cases hn
    refine of_retains hr (fun _ _ ↦ rfl) (fun _ _ ↦ rfl) fun first ↦ ?_
    constructor <;> simp [Job.owned?, Job.made?, Job.kept?, Job.used?, Job.granted?]
  | find key sweep =>
    cases hn
    refine of_retains hr (fun _ _ ↦ rfl) (fun _ _ ↦ rfl) fun index ↦ ?_
    dsimp only [Function.comp]
    split <;> constructor <;> simp [Job.owned?, Job.made?, Job.kept?, Job.used?, Job.granted?]
  | drain first =>
    cases hn
    exact of_retains hr (fun _ _ ↦ rfl) (fun _ _ ↦ rfl) fun keys ↦ retains_resume rfl d _
  | reportMissing key sweep =>
    cases hn
    exact of_retains hr (fun _ _ ↦ rfl) (fun _ _ ↦ rfl) (retains_resume rfl d _)
  | unlockContent key b sweep =>
    cases hn
    exact of_retains hr (fun _ _ ↦ rfl) (fun _ _ ↦ rfl) (retains_resume rfl d _)
  | countReleased sweep =>
    cases hn
    refine of_retains hr (fun _ _ ↦ rfl) (fun _ _ ↦ rfl) ?_
    dsimp only [Instr.map, Instr.Always]
    split <;> constructor <;> simp [Job.owned?, Job.made?, Job.kept?, Job.used?, Job.granted?]
  | erase key b sweep =>
    cases hn
    exact erasure hr h rfl rfl rfl rfl rfl
  | dispose key b sweep =>
    cases hn
    exact disposal hr rfl rfl rfl rfl rfl rfl
  | _ =>
    cases hn <;> refine of_retains hr (fun _ _ ↦ rfl) (fun _ _ ↦ rfl) ?_ <;> constructor <;>
      simp [Job.owned?, Job.made?, Job.kept?, Job.used?, Job.granted?]

/-- A step that leaves the store alone but for its locks, of a job without storage of its own. -/
private theorem of_reading (hr : instr.run supply who s = some (job', s'))
    (hi : ∀ t index, instr.onIndex t index = index)
    (hc : ∀ b content, instr.onContent b content = content) (ho : job'.owned? = none)
    (hm : job'.made? = none) (hk : job.kept? = none)
    (hu : ∀ h, job'.used? = some h → job.used? = some h ∨
      ∃ t : TableRef, (s.indexOf t)[h.key]? = some h.storage)
    (hg : ∀ g, job'.granted? = some g → job.granted? = some g ∨
      (∃ t : TableRef, (s.indexOf t)[g.handle.key]? = some g.handle.storage) ∨
      (s.contentOf g.handle.storage).released = false) : Moves s s' job job' := by
  have hch := Instr.changes_of_run hr
  exact
    { index := fun hb ↦ .inl (by rwa [hch.index, hi] at hb)
      content := fun {b} hb ↦ .inl (by rw [hch.content b hb, hc])
      owned := fun hb ↦ by simp [ho] at hb
      made := fun hb ↦ by simp [hm] at hb
      kept := fun hb ↦ by simp [hk] at hb
      used := hu _
      granted := hg _ }

theorem lookup {l : Lookup} {phase : Lookup.Phase} {step : Instr Lookup.Phase}
    (h : Job.Knows s (.lookingUp l phase)) (hn : l.progress phase = .next step)
    (hr : (step.map (.lookingUp l)).run supply who s = some (job', s')) :
    Moves s s' (.lookingUp l phase) job' := by
  cases phase with
  | find =>
    cases hn
    obtain ⟨-, hx, -⟩ := Instr.run_readIndex.mp hr
    dsimp only [Function.comp] at hx
    split at hx
    · next b hb =>
      subst hx
      refine of_reading hr (fun _ _ ↦ rfl) (fun _ _ ↦ rfl) rfl rfl rfl (fun k hk ↦ .inr ?_)
        fun g hg ↦ by simp [Job.granted?] at hg
      cases hk
      exact ⟨l.table, hb⟩
    · subst hx
      refine of_reading hr (fun _ _ ↦ rfl) (fun _ _ ↦ rfl) rfl rfl rfl (fun k hk ↦ ?_)
        fun g hg ↦ by simp [Job.granted?] at hg
      simp [Job.used?, Job.granted?] at hk
  | lockContent b =>
    cases hn
    obtain ⟨-, _, -, rfl, -⟩ := Instr.run_acquire.mp hr
    refine of_reading hr (fun _ _ ↦ rfl) (fun _ _ ↦ rfl) rfl rfl rfl (fun k hk ↦ .inl hk)
      fun g hg ↦ .inr (.inl ?_)
    cases hg
    exact ⟨l.table, h⟩
  | _ =>
    cases hn <;> refine of_retains hr (fun _ _ ↦ rfl) (fun _ _ ↦ rfl) ?_ <;> constructor <;>
      simp [Job.owned?, Job.made?, Job.kept?, Job.used?, Job.granted?]

theorem access {a : Access} {phase : Access.Phase} {step : Instr Access.Phase}
    (hn : a.progress phase = .next step)
    (hr : (step.map (.accessing a)).run supply who s = some (job', s')) :
    Moves s s' (.accessing a phase) job' := by
  cases phase with
  | check =>
    cases hn
    obtain ⟨-, hx, -⟩ := Instr.run_readContent.mp hr
    dsimp only [Function.comp] at hx
    split at hx
    · subst hx
      refine of_reading hr (fun _ _ ↦ rfl) (fun _ _ ↦ rfl) rfl rfl rfl (fun k hk ↦ .inl hk)
        fun g hg ↦ by simp [Job.granted?] at hg
    · next hl =>
      subst hx
      refine of_reading hr (fun _ _ ↦ rfl) (fun _ _ ↦ rfl) rfl rfl rfl (fun k hk ↦ .inl hk)
        fun g hg ↦ .inr (.inr ?_)
      cases hg
      exact Bool.eq_false_iff.mpr hl
  | _ =>
    cases hn <;> refine of_retains hr (fun _ _ ↦ rfl) (fun _ _ ↦ rfl) ?_ <;> constructor <;>
      simp [Job.owned?, Job.made?, Job.kept?, Job.used?, Job.granted?]

/-- A step of a job that has nothing to do with storage and has neither a table nor content
alone. -/
private theorem of_bystander (hn : job.progress = .next instr)
    (hr : instr.run supply who s = some (job', s'))
    (ht : ∀ t, (.table t, .exclusive) ∉ job.held) (hb : ∀ b, (.content b, .exclusive) ∉ job.held)
    (ho : job'.owned? = none) (hm : job'.made? = none) (hk : job.kept? = none)
    (hu : job'.used? = none) (hg : job'.granted? = none) : Moves s s' job job' :=
  of_reading hr (fun t ↦ (Job.guarded hn).onIndex_eq (ht t))
    (fun b ↦ (Job.guarded hn).onContent_eq (hb b)) ho hm hk (fun h hh ↦ by simp [hu] at hh)
    fun g hh ↦ by simp [hg] at hh

/-- A step of any job that knows what it has read. -/
theorem of_run (h : job.Knows s) (hn : job.progress = .next instr)
    (hr : instr.run supply who s = some (job', s')) : Moves s s' job job' := by
  cases job with
  | allocating a phase =>
    obtain ⟨step, hp, rfl⟩ := Progress.map_eq_next.mp hn
    exact allocation hp hr
  | freeing f phase =>
    obtain ⟨step, hp, rfl⟩ := Progress.map_eq_next.mp hn
    exact removal h hp hr
  | tearingDown d phase =>
    obtain ⟨step, hp, rfl⟩ := Progress.map_eq_next.mp hn
    exact teardown h hp hr
  | lookingUp l phase =>
    obtain ⟨step, hp, rfl⟩ := Progress.map_eq_next.mp hn
    exact lookup h hp hr
  | accessing a phase =>
    obtain ⟨step, hp, rfl⟩ := Progress.map_eq_next.mp hn
    exact access hp hr
  | attaching a phase =>
    obtain ⟨step, hp, rfl⟩ := Progress.map_eq_next.mp hn
    obtain ⟨next, -, rfl⟩ := Instr.run_map_eq_some.mp hr
    exact of_bystander hn hr (by simp [Job.held]) (by simp [Job.held]) rfl rfl rfl rfl rfl
  | inspecting i phase =>
    obtain ⟨step, hp, rfl⟩ := Progress.map_eq_next.mp hn
    obtain ⟨next, -, rfl⟩ := Instr.run_map_eq_some.mp hr
    exact of_bystander hn hr (by cases phase <;> simp [Job.held, Inspection.held])
      (by cases phase <;> simp [Job.held, Inspection.held]) rfl rfl rfl rfl rfl
  | editing c phase =>
    obtain ⟨step, hp, rfl⟩ := Progress.map_eq_next.mp hn
    obtain ⟨next, -, rfl⟩ := Instr.run_map_eq_some.mp hr
    exact of_bystander hn hr (by cases phase <;> simp [Job.held, RosterCall.held])
      (by cases phase <;> simp [Job.held, RosterCall.held]) rfl rfl rfl rfl rfl
  | drawing d phase =>
    obtain ⟨step, hp, rfl⟩ := Progress.map_eq_next.mp hn
    obtain ⟨next, -, rfl⟩ := Instr.run_map_eq_some.mp hr
    exact of_bystander hn hr (by simp [Job.held]) (by simp [Job.held]) rfl rfl rfl rfl rfl

end Moves

/-! ### Knowledge from step to step -/

section Knowledge

variable {supply : Supply} {who : CallRef} {s s' : Store} {job' : Job}

private theorem knows_of_always {job : Job} {instr : Instr Job}
    (hr : instr.run supply who s = some (job, s')) (h : instr.Always fun job ↦ ∀ s, job.Knows s) :
    job.Knows s' :=
  h.of_run hr s'

private theorem knows_resume (d : Teardown) (sweep : Teardown.Sweep) (s : Store) :
    Job.Knows s (.tearingDown d (.resume sweep)) := by
  unfold Teardown.Phase.resume
  split <;> trivial

private theorem knows_allocation {a : Allocation} {phase : Allocation.Phase}
    {step : Instr Allocation.Phase} (hn : a.progress phase = .next step)
    (hr : (step.map (.allocating a)).run supply who s = some (job', s')) : job'.Knows s' := by
  cases phase with
  | checkLimits =>
    cases hn
    refine knows_of_always hr fun limits ↦ ?_
    dsimp only [Function.comp]
    split <;> exact fun _ ↦ trivial
  | insert b key =>
    cases hn
    have hc := Instr.changes_of_run hr
    obtain ⟨-, ⟨-, rfl, -⟩ | ⟨hk, rfl, -⟩⟩ := Instr.run_insert.mp hr
    · trivial
    · simp only [Job.Knows]
      rw [hc.index]
      simp [Instr.map, Instr.onIndex, hk]
  | _ => cases hn <;> exact knows_of_always hr (by simp [Instr.map, Instr.Always, Job.Knows])

private theorem knows_removal {f : Removal} {phase : Removal.Phase} {step : Instr Removal.Phase}
    (h : Job.Knows s (.freeing f phase)) (hn : f.progress phase = .next step)
    (hr : (step.map (.freeing f)).run supply who s = some (job', s')) : job'.Knows s' := by
  have hc := Instr.changes_of_run hr
  cases phase with
  | find =>
    cases hn
    obtain ⟨-, rfl, rfl⟩ := Instr.run_readIndex.mp hr
    dsimp only [Function.comp]
    split
    · next b hb => exact hb
    · trivial
  | checkOwner b =>
    cases hn
    obtain ⟨-, rfl, rfl⟩ := Instr.run_readRoster.mp hr
    dsimp only [Function.comp]
    split
    · next hr => exact ⟨h, hr⟩
    · trivial
  | lockContent b =>
    cases hn
    obtain ⟨-, _, -, rfl, -⟩ := Instr.run_acquire.mp hr
    simp only [Job.Knows]
    rw [hc.index, hc.roster]
    exact h
  | erase b =>
    cases hn
    obtain ⟨-, rfl, -⟩ := Instr.run_erase.mp hr
    simp only [Job.Knows]
    rw [hc.index, hc.roster]
    exact ⟨by simp [Instr.map, Instr.onIndex], h.2⟩
  | _ => cases hn <;> exact knows_of_always hr (by simp [Instr.map, Instr.Always, Job.Knows])

private theorem knows_teardown {d : Teardown} {phase : Teardown.Phase}
    {step : Instr Teardown.Phase} (h : Job.Knows s (.tearingDown d phase))
    (hn : d.progress phase = .next step)
    (hr : (step.map (.tearingDown d)).run supply who s = some (job', s')) : job'.Knows s' := by
  cases phase with
  | find key sweep =>
    cases hn
    obtain ⟨-, rfl, rfl⟩ := Instr.run_readIndex.mp hr
    dsimp only [Function.comp]
    split
    · next b hb => exact hb
    · trivial
  | lockContent key b sweep =>
    cases hn
    have hc := Instr.changes_of_run hr
    obtain ⟨-, _, -, rfl, -⟩ := Instr.run_acquire.mp hr
    simp only [Job.Knows]
    rw [hc.index]
    exact h
  | drain first =>
    cases hn
    exact knows_of_always hr fun keys ↦ knows_resume d _
  | reportMissing key sweep =>
    cases hn
    exact knows_of_always hr (knows_resume d _)
  | unlockContent key b sweep =>
    cases hn
    exact knows_of_always hr (knows_resume d _)
  | countReleased sweep =>
    cases hn
    refine knows_of_always hr ?_
    dsimp only [Instr.map, Instr.Always]
    split <;> exact fun _ ↦ trivial
  | _ => cases hn <;> exact knows_of_always hr (by simp [Instr.map, Instr.Always, Job.Knows])

private theorem knows_lookup {l : Lookup} {phase : Lookup.Phase} {step : Instr Lookup.Phase}
    (hn : l.progress phase = .next step)
    (hr : (step.map (.lookingUp l)).run supply who s = some (job', s')) : job'.Knows s' := by
  cases phase with
  | find =>
    cases hn
    obtain ⟨-, rfl, rfl⟩ := Instr.run_readIndex.mp hr
    dsimp only [Function.comp]
    split
    · next b hb => exact hb
    · trivial
  | _ => cases hn <;> exact knows_of_always hr (by simp [Instr.map, Instr.Always, Job.Knows])

/-- After a step of its own, what a job knows is true again. -/
theorem Job.Knows.step {job : Job} {instr : Instr Job} (h : job.Knows s)
    (hn : job.progress = .next instr) (hr : instr.run supply who s = some (job', s')) :
    job'.Knows s' := by
  cases job <;> obtain ⟨step, hp, rfl⟩ := Progress.map_eq_next.mp hn
  case allocating a phase => exact knows_allocation hp hr
  case freeing f phase => exact knows_removal h hp hr
  case tearingDown d phase => exact knows_teardown h hp hr
  case lookingUp l phase => exact knows_lookup hp hr
  all_goals
    obtain ⟨next, -, rfl⟩ := Instr.run_map_eq_some.mp hr
    trivial

end Knowledge

end SessionBuffers
