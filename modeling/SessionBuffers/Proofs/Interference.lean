import SessionBuffers.Proofs.Answers

/-!
# What a held lock protects

Every step that changes an index, a roster or content is made by a call that holds the lock of it
alone (`Job.guarded`). So what lies behind a lock stays as it is for any call that holds the lock,
whatever the other calls do (`Locked.index_kept`, `Locked.roster_kept`, `Locked.content_kept`).
-/

namespace SessionBuffers

/-! ### Changes are made under locks -/

/-- Whether a step that changes an index, a roster or content, or makes room in a roster, has the
lock of it alone. -/
def Instr.Guarded {σ : Type} (held : List (LockName × Mode)) : Instr σ → Prop
  | insert t _ _ _ _ | erase t _ _ => (.table t, .exclusive) ∈ held
  | reserve r _ _ _ _ | add r _ _ | remove r _ _ | drain r _ | close r _ =>
    (.registry r, .exclusive) ∈ held
  | dispose b _ => (.content b, .exclusive) ∈ held
  | _ => True

namespace Instr

variable {σ : Type} {held : List (LockName × Mode)} {instr : Instr σ}

theorem guarded_map {τ : Type} (f : σ → τ) : (instr.map f).Guarded held ↔ instr.Guarded held := by
  cases instr <;> rfl

theorem Guarded.onIndex_eq (h : instr.Guarded held) {t : TableRef}
    (ht : (.table t, .exclusive) ∉ held) (index : Index) : instr.onIndex t index = index := by
  cases instr with
  | insert u key b fresh present =>
    rw [onIndex, if_neg]
    rintro rfl
    exact ht h
  | erase u key next =>
    rw [onIndex, if_neg]
    rintro rfl
    exact ht h
  | _ => rfl

theorem Guarded.onRoster_eq (h : instr.Guarded held) {r : RegistryRef}
    (hr : (.registry r, .exclusive) ∉ held) (roster : Roster) :
    instr.onRoster r roster = roster := by
  have hne (q : RegistryRef) (hq : (.registry q, .exclusive) ∈ held) : q ≠ r := by
    rintro rfl
    exact hr hq
  cases instr with
  | add q key next => exact if_neg (hne q h)
  | remove q key next => exact if_neg (hne q h)
  | drain q next => exact if_neg (hne q h)
  | close q next => exact if_neg (hne q h)
  | _ => rfl

theorem Guarded.onContent_eq (h : instr.Guarded held) {b : StorageRef}
    (hb : (.content b, .exclusive) ∉ held) (content : Content) :
    instr.onContent b content = content := by
  cases instr with
  | dispose c next =>
    rw [onContent, if_neg]
    rintro rfl
    exact hb h
  | _ => rfl

end Instr

/-- Whatever a job changes, it holds the lock of it alone. -/
theorem Job.guarded {job : Job} {instr : Instr Job} (h : job.progress = .next instr) :
    instr.Guarded job.held := by
  cases job <;> obtain ⟨step, hp, rfl⟩ := Progress.map_eq_next.mp h <;> rw [Instr.guarded_map]
  case attaching a phase =>
    cases phase with
    | start =>
      simp only [Attachment.progress] at hp
      split at hp <;> cases hp <;> trivial
    | _ => cases hp <;> trivial
  case allocating a phase =>
    cases phase <;> cases hp <;> simp [Instr.Guarded, held, Allocation.held]
  case freeing f phase => cases phase <;> cases hp <;> simp [Instr.Guarded, held, Removal.held]
  case tearingDown d phase => cases phase <;> cases hp <;> simp [Instr.Guarded, held, Teardown.held]
  case lookingUp l phase => cases phase <;> cases hp <;> trivial
  case accessing a phase => cases phase <;> cases hp <;> trivial
  case inspecting i phase => cases phase <;> cases hp <;> trivial
  case editing c phase =>
    cases phase with
    | act =>
      cases hp
      unfold RosterCall.act
      split <;> simp [Instr.Guarded, held, RosterCall.held]
    | _ => cases hp <;> trivial
  case drawing d phase =>
    cases phase <;> cases hp
    trivial

/-- The table or registry whose index or roster a step reads or changes. -/
def Instr.visits? {σ : Type} : Instr σ → Option LockName
  | insert t _ _ _ _ | erase t _ _ | readIndex t _ => some (.table t)
  | reserve r _ _ _ _ | readRoster r _ | add r _ _ | remove r _ _ | drain r _ | close r _ =>
    some (.registry r)
  | _ => none

theorem Instr.visits?_map {σ τ : Type} (f : σ → τ) (instr : Instr σ) :
    (instr.map f).visits? = instr.visits? := by
  cases instr <;> rfl

/-- Whatever a job looks at, it has locked. -/
theorem Job.held_of_visits? {job : Job} {instr : Instr Job} {name : LockName}
    (h : job.progress = .next instr) (hv : instr.visits? = some name) :
    ∃ mode, (name, mode) ∈ job.held := by
  cases job <;> obtain ⟨step, hp, rfl⟩ := Progress.map_eq_next.mp h <;>
    rw [Instr.visits?_map] at hv
  case attaching a phase =>
    cases phase with
    | start =>
      simp only [Attachment.progress] at hp
      split at hp <;> cases hp <;> cases hv
    | _ => cases hp <;> cases hv
  case allocating a phase =>
    cases phase <;> cases hp <;> cases hv <;> exact ⟨.exclusive, by simp [held, Allocation.held]⟩
  case freeing f phase =>
    cases phase <;> cases hp <;> cases hv <;> exact ⟨.exclusive, by simp [held, Removal.held]⟩
  case tearingDown d phase =>
    cases phase <;> cases hp <;> cases hv <;> exact ⟨.exclusive, by simp [held, Teardown.held]⟩
  case lookingUp l phase =>
    cases phase <;> cases hp <;> cases hv
    exact ⟨.shared, by simp [held, Lookup.held]⟩
  case accessing a phase => cases phase <;> cases hp <;> cases hv
  case inspecting i phase =>
    cases phase <;> cases hp <;> cases hv
    exact ⟨.shared, by simp [held, Inspection.held]⟩
  case editing c phase =>
    cases phase with
    | act =>
      cases hp
      unfold RosterCall.act at hv
      split at hv <;> (cases hv; exact ⟨.exclusive, by simp [held, RosterCall.held]⟩)
    | _ => cases hp <;> cases hv
  case drawing d phase =>
    cases phase <;> cases hp
    cases hv

/-! ### What stays while a lock is held -/

namespace Service

variable {supply : Supply} {s s' : Service} {action : Action} {i j : CallRef} {mode : Mode}

/-- A call that makes a step holds no lock alone that another call holds. -/
theorem Locked.not_exclusive (hs : s.Locked) {call : Call} {instr : Instr Job} {name : LockName}
    (hj : s.Holds j name mode) (hne : i ≠ j) (hc : s.calls[i]? = some call)
    (hp : call.job.progress = .next instr) : (name, .exclusive) ∉ call.job.held := by
  intro h
  have hd := hs.not_dropped hc hp
  have hi : s.Holds i name .exclusive := ⟨call, hc, by simpa [Call.held, hd] using h⟩
  exact hne (hs.unique hi hj).1.symm

/-- The index of a table stays while a call that holds the table makes no step. -/
theorem Locked.index_kept (hs : s.Locked) (hd : s.Does supply action s') {t : TableRef}
    (hj : s.Holds j (.table t) mode) (hne : action ≠ .step j) :
    s'.store.indexOf t = s.store.indexOf t := by
  cases hd with
  | invoke hr => rfl
  | @step i call instr job store hc hp hr =>
    have hij : i ≠ j := by
      rintro rfl
      exact hne rfl
    rw [(Instr.changes_of_run hr).index]
    exact (Job.guarded hp).onIndex_eq (hs.not_exclusive hj hij hc hp) _
  | drop hc hg hb => exact Store.indexOf_setLock ..
  | edit hw | swap hw => rfl
  | tend hk ha => exact ha.index t

/-- The roster of a registry stays while a call that holds the registry makes no step. -/
theorem Locked.roster_kept (hs : s.Locked) (hd : s.Does supply action s') {r : RegistryRef}
    (hj : s.Holds j (.registry r) mode) (hne : action ≠ .step j) :
    s'.store.rosterOf r = s.store.rosterOf r := by
  cases hd with
  | invoke hr => rfl
  | @step i call instr job store hc hp hr =>
    have hij : i ≠ j := by
      rintro rfl
      exact hne rfl
    rw [(Instr.changes_of_run hr).roster]
    exact (Job.guarded hp).onRoster_eq (hs.not_exclusive hj hij hc hp) _
  | drop hc hg hb => exact Store.rosterOf_setLock ..
  | edit hw | swap hw => rfl
  | tend hk ha => exact ha.roster r

/-- While a call holds a registry or a table alone, no other call is about to look at it. -/
theorem Locked.not_visited (hs : s.Locked) {name : LockName} (hi : s.Holds i name .exclusive)
    (hne : j ≠ i) {job : Job} {instr : Instr Job} (hj : s.job? j = some job)
    (hn : job.progress = .next instr) : instr.visits? ≠ some name := by
  intro hv
  obtain ⟨call, hc, rfl⟩ := job?_eq_some.mp hj
  obtain ⟨mode, hh⟩ := Job.held_of_visits? hn hv
  have hd := hs.not_dropped hc hn
  exact hne (hs.unique hi ⟨call, hc, by simpa [Call.held, hd] using hh⟩).1

/-- A held lock exists. -/
theorem Locked.has_of_holds (hs : s.Locked) {name : LockName} (hj : s.Holds j name mode) :
    s.store.Has name := by
  cases h : s.store.lock? name with
  | some l => simp [Store.Has, h]
  | none =>
    have hl := (hs.holds_iff name j mode).mpr hj
    simp [Store.lockOf, h] at hl

/-- The call a client has a guard from holds the content under it. -/
theorem holds_of_guard? {call : Call} {g : Guard} (hc : s.calls[i]? = some call)
    (hg : call.guard? = some g) (hp : call.job.Proper) :
    s.Holds i (.content g.handle.storage) g.mode := by
  obtain ⟨hd, ho⟩ := Call.guard?_eq_some.mp hg
  refine ⟨call, hc, ?_⟩
  rw [Call.held, hd]
  exact hp.held_of_guard ho

/-- A call that has ended holds nothing but the content under its guard. -/
theorem Locked.guard?_of_holds (hs : s.Locked) {o : Outcome} (ho : s.outcome? i = some o)
    {name : LockName} (hh : (s.store.lockOf name).Holds i mode) :
    ∃ g, s.guard? i = some g ∧ name = .content g.handle.storage ∧ mode = g.mode := by
  obtain ⟨call, hc, hm⟩ := (hs.holds_iff name i mode).mp hh
  have ho : call.job.outcome? = some o := by simpa [Service.outcome?, hc] using ho
  have hd : call.dropped = false := by
    cases hd : call.dropped with
    | false => rfl
    | true => simp [Call.held, hd] at hm
  obtain ⟨g, rfl, hname, hmode⟩ :=
    Job.held_of_outcome? ho name mode (by simpa [Call.held, hd] using hm)
  exact ⟨g, guard?_eq_some.mpr ⟨call, hc, Call.guard?_eq_some.mpr ⟨hd, ho⟩⟩, hname, hmode⟩

/-- When no call is under way, whoever holds a lock has a guard on that content. -/
theorem Idle.guard?_of_holds (hidle : s.Idle) (hs : s.Locked) {name : LockName}
    (hh : (s.store.lockOf name).Holds i mode) :
    ∃ g, s.guard? i = some g ∧ name = .content g.handle.storage ∧ mode = g.mode := by
  obtain ⟨call, hc, -⟩ := (hs.holds_iff name i mode).mp hh
  obtain ⟨o, -, ho⟩ := hidle.outcome? (job?_eq_some.mpr ⟨call, hc, rfl⟩)
  exact hs.guard?_of_holds ho hh

/-- What is written is under a guard, so content that another call holds stays as it is. -/
theorem Locked.content_of_writes (hs : s.Locked)
    (hp : ∀ {i : CallRef} {call : Call}, s.calls[i]? = some call → call.job.Proper)
    {storages : Array Storage} (hw : s.Writes action storages) {b : StorageRef}
    (hj : s.Holds j (.content b) mode) (hwriters : j ∉ action.writers) :
    ({ s.store with storages } : Store).contentOf b = s.store.contentOf b := by
  obtain hsame | ⟨i, hi, g, hg, hm, rfl⟩ := hw.content_or b
  · exact hsame
  · obtain ⟨call, hc, hcg⟩ := guard?_eq_some.mp hg
    have hheld := holds_of_guard? hc hcg (hp hc)
    rw [hm] at hheld
    obtain rfl := (hs.unique hheld hj).1
    exact absurd hi hwriters

/-- Content stays while a call that holds it neither makes a step nor writes under its guard. -/
theorem Locked.content_kept (hs : s.Locked)
    (hp : ∀ {i : CallRef} {call : Call}, s.calls[i]? = some call → call.job.Proper)
    (hd : s.Does supply action s') {b : StorageRef} (hj : s.Holds j (.content b) mode)
    (hne : action ≠ .step j)
    (hwriters : j ∉ action.writers) :
    s'.store.contentOf b = s.store.contentOf b := by
  have hb := hs.has_of_holds hj
  cases hd with
  | invoke hr => rfl
  | @step i call instr job store hc hn hr =>
    have hij : i ≠ j := by
      rintro rfl
      exact hne rfl
    rw [(Instr.changes_of_run hr).content b hb]
    exact (Job.guarded hn).onContent_eq (hs.not_exclusive hj hij hc hn) _
  | drop hc hg hb => exact Store.contentOf_setLock ..
  | edit hw | swap hw => exact hs.content_of_writes hp hw hj hwriters
  | tend hk ha => exact ha.content b

end Service

end SessionBuffers
