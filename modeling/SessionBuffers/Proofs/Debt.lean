import SessionBuffers.Proofs.Ideal

/-!
# What a call under way still owes

Every call takes effect at one of its steps: an allocation when it draws its number, a free when it
takes the key out of the table, a teardown when it gives the registry back, a lookup when it is
given the content. From that step on it is bound to give one answer (`Job.answer?`). What it has
still to do to the store, or a teardown has done already, stays between the store and the ideal
state until then (`Job.Owes`); only the index and the roster that the call has locked are concerned.
-/

namespace SessionBuffers

/-- How far a teardown has swept the drained keys: the sweep so far, and the keys to come. -/
def Teardown.Phase.swept? : Teardown.Phase → Option (Sweep × List Key)
  | .find key w | .lockContent key _ w | .erase key _ w => some (w, key :: w.todo)
  | .reportMissing key w => some (w.skip key, w.todo)
  | .dispose key _ w | .unlockContent key _ w => some (w.take key, w.todo)
  | .unlockRegistry w => some (w, [])
  | _ => none

/-- What a teardown has done to its roster and its table, of which nothing has taken effect. Of the
buffers that it has passed all are released, but for the one it owns. -/
structure Teardown.Swept (d : Teardown) (p : Ideal) (s : Store) (own : Option StorageRef)
    (w : Sweep) (coming : List Key) : Prop where
  roster : s.rosterOf d.registry = (p.roster d.registry).drained.close
  keys : (p.roster d.registry).toList = w.passed.reverse ++ coming
  index : s.indexOf d.table = (p.index d.table).without w.passed
  count : w.released = w.passed.countP fun key ↦ (p.index d.table).contains key
  released : ∀ key ∈ w.passed, ∀ b, (p.index d.table)[key]? = some b →
    own = some b ∨ s.Has (.content b) ∧ (s.contentOf b).released = true

theorem Teardown.Swept.congr {d : Teardown} {p p' : Ideal} {s s' : Store}
    {own : Option StorageRef} {w : Sweep} {coming : List Key} (h : d.Swept p s own w coming)
    (hi : p'.index d.table = p.index d.table) (hi' : s'.indexOf d.table = s.indexOf d.table)
    (hr : p'.roster d.registry = p.roster d.registry)
    (hr' : s'.rosterOf d.registry = s.rosterOf d.registry)
    (hrel : ∀ b, s.Has (.content b) ∧ (s.contentOf b).released = true →
      s'.Has (.content b) ∧ (s'.contentOf b).released = true) :
    d.Swept p' s' own w coming where
  roster := by rw [hr', hr, h.roster]
  keys := by rw [hr, h.keys]
  index := by rw [hi', hi, h.index]
  count := by rw [hi, h.count]
  released key hk b hb := by
    rw [hi] at hb
    exact (h.released key hk b hb).imp_right (hrel b)

namespace Teardown.Swept

variable {d : Teardown} {p : Ideal} {s s' : Store} {own : Option StorageRef} {w : Sweep}
  {key : Key} {b : StorageRef} {coming : List Key}

/-- A key to come has not been passed. -/
private theorem not_passed (h : d.Swept p s own w (key :: coming)) : key ∉ w.passed := by
  have hnodup := (p.roster d.registry).nodup_toList
  rw [h.keys] at hnodup
  intro hk
  exact (List.disjoint_of_nodup_append hnodup) (List.mem_reverse.mpr hk) List.mem_cons_self

/-- A key that the table does not have is passed over. -/
theorem skip (h : d.Swept p s none w (key :: coming)) (hk : (s.indexOf d.table)[key]? = none) :
    d.Swept p s none (w.skip key) coming := by
  have hnone : (p.index d.table)[key]? = none := by
    rw [h.index, Index.getElem?_without, if_neg h.not_passed] at hk
    exact hk
  refine ⟨h.roster, by simp [h.keys, Sweep.skip], ?_, ?_, fun k hmem b hb ↦ ?_⟩
  · refine Std.ExtTreeMap.ext_getElem? fun k ↦ ?_
    rw [h.index, Index.getElem?_without, Index.getElem?_without]
    by_cases he : k = key
    · simp [he, hnone, Sweep.skip]
    · simp [he, Sweep.skip]
  · simp [Sweep.skip, h.count, Index.not_contains_iff.mpr hnone]
  · obtain rfl | hmem := List.mem_cons.mp hmem
    · rw [hnone] at hb
      cases hb
    · exact h.released k hmem b hb

/-- A key that the table has is taken out of it. -/
theorem take (h : d.Swept p s none w (key :: coming)) (hk : (s.indexOf d.table)[key]? = some b)
    (hi : s'.indexOf d.table = (s.indexOf d.table).erase key)
    (hr : s'.rosterOf d.registry = s.rosterOf d.registry)
    (hrel : ∀ c, s.Has (.content c) ∧ (s.contentOf c).released = true →
      s'.Has (.content c) ∧ (s'.contentOf c).released = true) :
    d.Swept p s' (some b) (w.take key) coming := by
  have hsome : (p.index d.table)[key]? = some b := by
    rw [h.index, Index.getElem?_without, if_neg h.not_passed] at hk
    exact hk
  refine ⟨by rw [hr, h.roster], by simp [h.keys, Sweep.take], by rw [hi, h.index]; rfl, ?_,
    fun k hmem c hc ↦ ?_⟩
  · simp [Sweep.take, h.count, Index.contains_iff.mpr ⟨b, hsome⟩]
  · obtain rfl | hmem := List.mem_cons.mp hmem
    · exact .inl (hsome.symm.trans hc)
    · exact .inr (hrel c ((h.released k hmem c hc).resolve_left (by simp)))

/-- The content of a key that has been taken out is given up. -/
theorem dispose (h : d.Swept p s (some b) w coming) (hi : s'.indexOf d.table = s.indexOf d.table)
    (hr : s'.rosterOf d.registry = s.rosterOf d.registry)
    (hb : s'.Has (.content b) ∧ (s'.contentOf b).released = true)
    (hrel : ∀ c, s.Has (.content c) ∧ (s.contentOf c).released = true →
      s'.Has (.content c) ∧ (s'.contentOf c).released = true) :
    d.Swept p s' none w coming := by
  refine ⟨by rw [hr, h.roster], h.keys, by rw [hi, h.index], h.count, fun k hmem c hc ↦ .inr ?_⟩
  obtain he | hc := h.released k hmem c hc
  · cases he
    exact hb
  · exact hrel c hc

end Teardown.Swept

namespace Job

/-- The request a job is for. -/
def request : Job → Request
  | attaching a _ => .attach a
  | allocating a _ => .allocate a.table a.registry a.user a.kernel
  | freeing f _ => .free f.table f.registry f.key.buffer
  | tearingDown d _ => .teardown d.table d.registry
  | lookingUp l _ => .lookup l.table l.key l.mode
  | accessing a _ => .access a.handle a.mode
  | inspecting i _ => .inspect i.table i.question
  | editing c _ => .roster c.registry c.action
  | drawing d _ => .draw d.table

/-- Whether the session a job acts for is that of its registry. -/
def Named (s : Store) : Job → Prop
  | allocating a _ => a.session = s.sessionOf a.registry
  | freeing f _ => f.key.session = s.sessionOf f.registry
  | editing c _ => c.session = s.sessionOf c.registry
  | _ => True

/-- The answer a job is bound to give, once it has taken effect. -/
def answer? (s : Store) : Job → Option Outcome
  | attaching _ (.count _ r) | attaching _ (.report _ r) => some (.registry r)
  | allocating a (.insert b key) =>
    some (if (s.indexOf a.table).contains key then .refused (.duplicateKey key)
      else .handle ⟨key, b⟩)
  | allocating _ (.unlockTable b key) | allocating _ (.enlist b key)
  | allocating _ (.unlockRegistry b key) | allocating _ (.unlockContent b key)
  | allocating _ (.count b key) | allocating _ (.report b key) => some (.handle ⟨key, b⟩)
  | allocating _ (.abandonRegistry _ why) | allocating _ (.abandonTable _ why)
  | allocating _ (.abandonContent _ why) | allocating _ (.countFailure why)
  | allocating _ (.reportFailure why) => some (.refused why)
  | freeing _ (.forget _) | freeing _ (.unlockRegistry _) | freeing _ (.unlockTable _)
  | freeing _ (.dispose _) | freeing _ (.unlockContent _) | freeing _ .count
  | freeing _ .report => some .done
  | freeing f (.missRegistry _) | freeing f (.missTable _) | freeing f (.countMiss _)
  | freeing f (.reportMiss _) => some (.refused (.notFound f.key))
  | tearingDown _ (.unlockTable w) | tearingDown _ (.countReleased w)
  | tearingDown _ (.countClosed w) | tearingDown _ (.report w) => some (.number w.released)
  | lookingUp l (.unlockTable b) | lookingUp l (.count b) => some (.guard ⟨⟨l.key, b⟩, l.mode⟩)
  | lookingUp l .missTable | lookingUp l .countMiss | lookingUp l .reportMiss =>
    some (.refused (.notFound l.key))
  | inspecting _ (.unlockTable o) | editing _ (.unlock o) => some o
  | job => job.outcome?

/-- The table whose index differs from the ideal one because of this job. -/
def indexDebt? : Job → Option TableRef
  | allocating a (.insert _ _) => some a.table
  | tearingDown d phase => phase.swept?.map fun _ ↦ d.table
  | _ => none

/-- The registry whose roster differs from the ideal one because of this job. -/
def rosterDebt? : Job → Option RegistryRef
  | allocating a (.insert _ _) | allocating a (.unlockTable _ _) | allocating a (.enlist _ _) =>
    some a.registry
  | freeing f (.forget _) => some f.registry
  | tearingDown d (.drain _) => some d.registry
  | tearingDown d phase => phase.swept?.map fun _ ↦ d.registry
  | _ => none

/-- The storage of an allocation that has not taken effect. -/
def unborn? : Job → Option StorageRef
  | allocating _ (.lockContent b) | allocating _ (.lockRegistry b) | allocating _ (.lockTable b)
  | allocating _ (.reserve b) | allocating _ (.draw b) => some b
  | _ => none

/-- What a job has learnt, and how the store it works on differs from the ideal state. -/
def Owes (p : Ideal) (s : Store) : Job → Prop
  | attaching a (.enroll _ capacity) => capacity = p.capacityFor a.purpose ∧ p.Names (.attach a)
  | attaching _ (.open _ _) => False
  | allocating a .provide => (p.limitsOf a.table).permits a.user a.kernel = true
  | allocating a (.lockContent b) | allocating a (.lockRegistry b) | allocating a (.lockTable b)
  | allocating a (.reserve b) | allocating a (.draw b) =>
    (p.limitsOf a.table).permits a.user a.kernel = true ∧
      s.contentOf b = .zeroed a.user a.kernel
  | allocating a (.insert b key) =>
    if (s.indexOf a.table).contains key then
      p.index a.table = s.indexOf a.table ∧ p.roster a.registry = s.rosterOf a.registry
    else p.index a.table = (s.indexOf a.table).insert key b ∧
      p.roster a.registry = (s.rosterOf a.registry).add key
  | allocating a (.unlockTable _ key) | allocating a (.enlist _ key) =>
    p.roster a.registry = (s.rosterOf a.registry).add key
  | freeing f (.forget _) => p.roster f.registry = (s.rosterOf f.registry).remove f.key
  | tearingDown _ (.finish _) => False
  | tearingDown d (.drain _) => s.rosterOf d.registry = (p.roster d.registry).close
  | tearingDown d phase => ∀ w coming, phase.swept? = some (w, coming) →
    d.Swept p s (owned? (.tearingDown d phase)) w coming
  | editing _ .tryLock => False
  | editing c .lock | editing c .act => ∀ key, c.action = .add key → key.session = c.session
  | _ => True

/-! ### Where debts lie -/

variable {p p' : Ideal} {s s' : Store} {job : Job} {t : TableRef} {r : RegistryRef} {b : StorageRef}

theorem held_of_indexDebt? (h : job.indexDebt? = some t) : (.table t, .exclusive) ∈ job.held := by
  cases job with
  | allocating a phase => cases phase <;> cases h; simp [held, Allocation.held]
  | tearingDown d phase => cases phase <;> cases h <;> simp [held, Teardown.held]
  | _ => cases h

theorem held_of_rosterDebt? (h : job.rosterDebt? = some r) :
    (.registry r, .exclusive) ∈ job.held := by
  cases job with
  | allocating a phase => cases phase <;> cases h <;> simp [held, Allocation.held]
  | freeing f phase => cases phase <;> cases h; simp [held, Removal.held]
  | tearingDown d phase => cases phase <;> cases h <;> simp [held, Teardown.held]
  | _ => cases h

theorem owned?_of_unborn? (h : job.unborn? = some b) : job.owned? = some b := by
  unfold unborn? at h
  split at h <;> cases h <;> rfl

theorem made?_of_unborn? (h : job.unborn? = some b) : ∃ a, job.made? = some (a, b) := by
  unfold unborn? at h
  split at h <;> cases h <;> exact ⟨_, rfl⟩

/-- A job that has ended owes nothing. -/
theorem no_debt_of_outcome? {o : Outcome} (h : job.outcome? = some o) :
    job.indexDebt? = none ∧ job.rosterDebt? = none := by
  have hheld := held_of_outcome? h
  constructor
  · cases hd : job.indexDebt? with
    | none => rfl
    | some t =>
      obtain ⟨g, -, hn, -⟩ := hheld _ _ (held_of_indexDebt? hd)
      cases hn
  · cases hd : job.rosterDebt? with
    | none => rfl
    | some r =>
      obtain ⟨g, -, hn, -⟩ := hheld _ _ (held_of_rosterDebt? hd)
      cases hn

/-- A job that has ended has given the answer it was bound to give. -/
theorem answer?_of_outcome? {o : Outcome} (h : job.outcome? = some o) : job.answer? s = some o := by
  have hp := outcome?_eq_some.mp h
  cases job with
  | attaching a phase =>
    cases phase with
    | start =>
      simp only [progress, Attachment.progress] at hp
      split at hp <;> cases hp
    | ended o => exact h
    | _ => cases hp
  | _ _ phase =>
    cases phase <;> cases hp
    exact h

/-- The answer a job is bound to give stays while the index it has changes on stays. -/
theorem answer?_congr (h : ∀ t, job.indexDebt? = some t → s'.indexOf t = s.indexOf t) :
    job.answer? s' = job.answer? s := by
  cases job with
  | allocating a phase =>
    cases phase with
    | insert b key => simp only [answer?, h a.table rfl]
    | _ => rfl
  | attaching _ phase | freeing _ phase | tearingDown _ phase | lookingUp _ phase
  | accessing _ phase | inspecting _ phase | editing _ phase | drawing _ phase =>
    cases phase <;> rfl

/-- A teardown goes on with the keys to come. -/
theorem owes_resume {d : Teardown} {w : Teardown.Sweep} (h : d.Swept p s none w w.todo) :
    Owes p s (.tearingDown d (.resume w)) := by
  unfold Teardown.Phase.resume
  split
  · next he =>
    rintro _ _ ⟨⟩
    exact he ▸ h
  · next key todo he =>
    rintro _ _ ⟨⟩
    rw [he] at h
    exact ⟨h.roster, h.keys, h.index, h.count, h.released⟩

theorem Owes.congr (h : job.Owes p s) (hl : p'.limits = p.limits)
    (hi : ∀ t, job.indexDebt? = some t →
      p'.index t = p.index t ∧ s'.indexOf t = s.indexOf t)
    (hr : ∀ r, job.rosterDebt? = some r →
      p'.roster r = p.roster r ∧ s'.rosterOf r = s.rosterOf r)
    (hb : ∀ b, job.unborn? = some b → s'.contentOf b = s.contentOf b)
    (hrel : ∀ b, s.Has (.content b) ∧ (s.contentOf b).released = true →
      s'.Has (.content b) ∧ (s'.contentOf b).released = true) :
    job.Owes p' s' := by
  have hlimits (t : TableRef) : p'.limitsOf t = p.limitsOf t := by rw [Ideal.limitsOf, hl]; rfl
  cases job with
  | attaching a phase =>
    cases phase with
    | enroll t capacity =>
      obtain ⟨rfl, hnames⟩ := h
      simp only [Owes, Ideal.Names, hl] at hnames ⊢
      exact ⟨by cases a.purpose <;> simp [Ideal.capacityFor, hlimits], hnames⟩
    | «open» t r => exact h
    | _ => trivial
  | allocating a phase =>
    cases phase with
    | provide =>
      simp only [Owes, hlimits]
      exact h
    | lockContent b | lockRegistry b | lockTable b | reserve b | draw b =>
      simp only [Owes, hlimits, hb b rfl]
      exact h
    | insert b key =>
      obtain ⟨hp, hs⟩ := hi a.table rfl
      obtain ⟨hp', hs'⟩ := hr a.registry rfl
      simp only [Owes, hp, hs, hp', hs']
      exact h
    | unlockTable b key | enlist b key =>
      obtain ⟨hp', hs'⟩ := hr a.registry rfl
      simp only [Owes, hp', hs']
      exact h
    | _ => trivial
  | freeing f phase =>
    cases phase with
    | forget b =>
      obtain ⟨hp', hs'⟩ := hr f.registry rfl
      simp only [Owes, hp', hs']
      exact h
    | _ => trivial
  | tearingDown d phase =>
    cases phase with
    | finish c => exact h
    | drain first =>
      obtain ⟨hp', hs'⟩ := hr d.registry rfl
      simp only [Owes, hp', hs']
      exact h
    | find key w | reportMissing key w | lockContent key b w | erase key b w | dispose key b w
    | unlockContent key b w | unlockRegistry w =>
      obtain ⟨hp, hs⟩ := hi d.table rfl
      obtain ⟨hp', hs'⟩ := hr d.registry rfl
      exact fun w coming hw ↦ (h w coming hw).congr hp hs hp' hs' hrel
    | _ => exact fun w coming hw ↦ by cases hw
  | editing c phase => cases phase <;> exact h
  | lookingUp _ phase | accessing _ phase | inspecting _ phase | drawing _ phase => trivial

theorem Named.congr (h : job.Named s) (hs : job.Scoped s)
    (hr : ∀ r, s.Has (.registry r) → s'.sessionOf r = s.sessionOf r) : job.Named s' := by
  cases job with
  | allocating a phase => exact h.trans (hr _ hs.2).symm
  | freeing f phase => exact h.trans (hr _ hs.2).symm
  | editing c phase => exact h.trans (hr _ hs).symm
  | _ => trivial

/-! ### From request to answer -/

/-- A step changes neither what a job is for nor for whom. -/
theorem kept_of_next {instr : Instr Job} (h : job.progress = .next instr) :
    instr.Always fun next ↦ next.request = job.request ∧ ∀ s, next.Named s ↔ job.Named s := by
  cases job <;> obtain ⟨step, -, rfl⟩ := Progress.map_eq_next.mp h <;> rw [Instr.always_map] <;>
    cases step <;> simp [Instr.Always, request, Named]

/-- A request for something that takes effect at once begins as a job for it, which owes nothing;
it has no answer yet, or it is turned away at once. -/
theorem begins_of_ofRequest? {request : Request} (ha : request.isAtomic = true)
    (h : ofRequest? s request = some job) : job.request = request ∧ job.Named s ∧
      job.indexDebt? = none ∧ job.rosterDebt? = none ∧ job.unborn? = none ∧ (∀ p, job.Owes p s) ∧
      (job.answer? s = none ∨ ∃ r key, request = .roster r (.add key) ∧
        key.session ≠ s.sessionOf r ∧ job.answer? s = some .misuse) := by
  cases ofRequest?_eq_some.mp h with
  | @attach a _ =>
    refine ⟨rfl, trivial, rfl, rfl, rfl, fun _ ↦ trivial, .inl ?_⟩
    simp only [answer?, outcome?, progress, Attachment.progress]
    cases a.purpose <;> rfl
  | teardown => exact ⟨rfl, trivial, rfl, rfl, rfl, fun _ _ _ hw ↦ by (cases hw), .inl rfl⟩
  | endSession => cases ha
  | access => cases ha
  | @roster r action _ =>
    cases action with
    | add key =>
      simp only [RosterCall.start]
      split
      · next hk =>
        refine ⟨rfl, rfl, rfl, rfl, rfl, fun _ k hk' ↦ ?_, .inl rfl⟩
        cases hk'
        exact hk
      · next hk =>
        exact ⟨rfl, rfl, rfl, rfl, rfl, fun _ ↦ trivial, .inr ⟨r, key, rfl, hk, rfl⟩⟩
    | tryContains key => cases ha
    | _ => exact ⟨rfl, rfl, rfl, rfl, rfl, fun _ _ hk ↦ by (cases hk), .inl rfl⟩
  | _ => exact ⟨rfl, by trivial, rfl, rfl, rfl, fun _ ↦ trivial, .inl rfl⟩

end Job

end SessionBuffers
