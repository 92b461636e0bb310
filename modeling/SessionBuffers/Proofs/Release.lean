import Mathlib.Data.List.Perm.Basic
import Mathlib.Data.List.Range
import SessionBuffers.Schedule
import SessionBuffers.Proofs.Sequence

/-!
# Locks given back

However a call ends, it keeps no lock but that of the content under the guard it ended with. So
when no call is under way registries and tables are free, each content is held by exactly the calls
whose guards are on it (`LockedByGuards`), and a registry can tell at once what it lists.
-/

namespace SessionBuffers

/-! ### Holders of a lock -/

namespace Lock

/-- The calls that hold a lock in a mode. -/
def holders : Lock → Mode → List CallRef
  | .shared holders, .shared => holders
  | .exclusive holder, .exclusive => [holder]
  | _, _ => []

variable {l : Lock} {i : CallRef} {mode : Mode}

theorem mem_holders : i ∈ l.holders mode ↔ l.Holds i mode := by
  cases l <;> cases mode <;> simp [holders, Holds]

theorem nodup_holders (h : l.Nodup) (mode : Mode) : (l.holders mode).Nodup := by
  cases l <;> cases mode <;> simp_all [holders, Nodup]

/-- A lock is free when nobody holds it. -/
theorem eq_free_of_not_holds (h : ∀ i mode, ¬ l.Holds i mode) : l = .free := by
  cases l with
  | shared holders => exact congrArg shared (List.eq_nil_iff_forall_not_mem.mpr fun i ↦ h i .shared)
  | exclusive holder => exact absurd rfl (h holder .exclusive)

theorem isHeld_iff : l.isHeld = true ↔ ∃ mode, l.holders mode ≠ [] := by
  constructor
  · intro h
    cases l with
    | shared holders => exact ⟨.shared, by simpa [Lock.holders, isHeld] using h⟩
    | exclusive holder => exact ⟨.exclusive, by simp [holders]⟩
  · rintro ⟨mode, h⟩
    cases l <;> cases mode <;> simp_all [holders, isHeld]

/-- A lock is held alone exactly when one call holds it so and nobody shares it. -/
theorem isExclusive_iff :
    l.isExclusive = true ↔ (l.holders .exclusive).length = 1 ∧ l.holders .shared = [] := by
  cases l <;> simp [holders, isExclusive]

end Lock

/-! ### Asking a registry that nobody holds -/

/-- A registry that nobody holds tells at once whether it lists a key. -/
theorem RosterCall.walks_of_tryContains {u : Store} {l : Lock} {c : RosterCall} {key : Key}
    (hact : c.action = .tryContains key) (supply : Supply) (who : CallRef)
    (hhas : u.Has (.registry c.registry))
    (hl : (u.lockOf (.registry c.registry)).acquire? who .exclusive = some l) :
    Job.Walks supply who 3 (.editing c .tryLock) u
      (.editing c (.ended (.flag ((u.rosterOf c.registry).contains key))))
      ((u.setLock (.registry c.registry) l).setLock (.registry c.registry) (l.release who)) := by
  have hhas' : (u.setLock (.registry c.registry) l).Has (.registry c.registry) :=
    (Store.has_setLock ..).mpr hhas
  have hread : (Instr.readRoster c.registry fun roster ↦
      Job.editing c (.unlock (.flag (roster.contains key)))).run supply who
        (u.setLock (.registry c.registry) l) = some (_, _) :=
    Instr.run_readRoster.mpr ⟨hhas', rfl, rfl⟩
  rw [Store.rosterOf_setLock] at hread
  have hnext : (Job.editing c .act).progress = .next (.readRoster c.registry fun roster ↦
      Job.editing c (.unlock (.flag (roster.contains key)))) := by
    simp [Job.progress, RosterCall.progress, RosterCall.act, hact, Progress.map, Instr.map,
      Function.comp_def]
  refine .step rfl (Instr.run_tryAcquire.mpr ⟨hhas, .inl ⟨l, hl, rfl, rfl⟩⟩)
    (.step hnext hread (.step rfl (Instr.run_release.mpr ⟨hhas', rfl, ?_⟩) .rest))
  rw [Store.lockOf_setLock hhas, if_pos rfl]

namespace Service

variable {limits : List Limits} {s : Service} {i : CallRef} {b : StorageRef} {mode : Mode}

/-! ### Locks and guards -/

/-- The calls whose guards are on a storage in a mode. -/
def guardsOn (s : Service) (b : StorageRef) (mode : Mode) : List CallRef :=
  (List.range s.calls.size).filter fun i ↦
    (s.guard? i).any fun g ↦ g.handle.storage == b && g.mode == mode

theorem mem_guardsOn :
    i ∈ s.guardsOn b mode ↔ ∃ g, s.guard? i = some g ∧ g.handle.storage = b ∧ g.mode = mode := by
  simp only [guardsOn, List.mem_filter, List.mem_range, Option.any_eq_true_iff_get,
    Bool.and_eq_true, beq_iff_eq]
  constructor
  · rintro ⟨-, hg, hb, hm⟩
    exact ⟨_, (Option.some_get hg).symm, hb, hm⟩
  · rintro ⟨g, hg, hb, hm⟩
    obtain ⟨call, hc, -⟩ := guard?_eq_some.mp hg
    exact ⟨(Array.getElem?_eq_some_iff.mp hc).1, by simp [hg], by simp [hg, hb], by simp [hg, hm]⟩

/-- Nothing is locked, or waited for, but the contents under guards, each as its guards say. -/
structure LockedByGuards (s : Service) : Prop where
  registry : ∀ r, s.store.lockOf (.registry r) = .free
  table : ∀ t, s.store.lockOf (.table t) = .free
  /-- There are as many readers as guards for reading. -/
  readers : ∀ b, ((s.store.lockOf (.content b)).holders .shared).length =
    (s.guardsOn b .shared).length
  exclusive : ∀ b, (s.store.lockOf (.content b)).isExclusive = true ↔
    (s.guardsOn b .exclusive).length = 1 ∧ s.guardsOn b .shared = []
  held : ∀ b, (s.store.lockOf (.content b)).isHeld = true ↔ ∃ mode, s.guardsOn b mode ≠ []
  unawaited : ∀ queue name, s.awaitsAlone queue name = false

/-- A call that has ended holds the content under its guard, and nothing else. -/
theorem Sound.holds_iff_guard? (hs : s.Sound) {o : Outcome} (ho : s.outcome? i = some o)
    {name : LockName} : (s.store.lockOf name).Holds i mode ↔
      ∃ g, s.guard? i = some g ∧ name = .content g.handle.storage ∧ mode = g.mode := by
  refine ⟨hs.locked.guard?_of_holds ho, ?_⟩
  rintro ⟨g, hg, rfl, rfl⟩
  obtain ⟨call, hc, hg⟩ := guard?_eq_some.mp hg
  exact (hs.locked.holds_iff ..).mpr (holds_of_guard? hc hg (hs.proper hc))

/-- When no call is under way, whoever holds a lock has a guard on that content. -/
private theorem Idle.holds_iff (hidle : s.Idle) (hs : s.Sound) {name : LockName} :
    (s.store.lockOf name).Holds i mode ↔
      ∃ g, s.guard? i = some g ∧ name = .content g.handle.storage ∧ mode = g.mode := by
  refine ⟨hidle.guard?_of_holds hs.locked, ?_⟩
  rintro ⟨g, hg, hrest⟩
  obtain ⟨call, hc, -⟩ := guard?_eq_some.mp hg
  obtain ⟨o, -, ho⟩ := hidle.outcome? (job?_eq_some.mpr ⟨call, hc, rfl⟩)
  exact (hs.holds_iff_guard? ho).mpr ⟨g, hg, hrest⟩

/-- The holders of a content are the calls whose guards are on it. -/
private theorem Idle.holders_perm (hidle : s.Idle) (hs : s.Sound) (b : StorageRef) (mode : Mode) :
    ((s.store.lockOf (.content b)).holders mode).Perm (s.guardsOn b mode) := by
  refine (List.perm_ext_iff_of_nodup (Lock.nodup_holders (hs.locked.nodup _) mode)
    (List.nodup_range.filter _)).mpr fun i ↦ ?_
  rw [Lock.mem_holders, hidle.holds_iff hs]
  exact Iff.trans (by simp only [LockName.content.injEq, eq_comm]) mem_guardsOn.symm

/-- When no call is under way, only guards keep anything locked. -/
private theorem Idle.lockedByGuards (hidle : s.Idle) (hs : s.Sound) : s.LockedByGuards := by
  have hfree {name : LockName} (hn : ∀ b, name ≠ .content b) : s.store.lockOf name = .free := by
    refine Lock.eq_free_of_not_holds fun i mode hh ↦ ?_
    obtain ⟨g, -, hname, -⟩ := (hidle.holds_iff hs).mp hh
    exact hn _ hname
  have hperm := hidle.holders_perm hs
  have hnil (b : StorageRef) (mode : Mode) :
      (s.store.lockOf (.content b)).holders mode = [] ↔ s.guardsOn b mode = [] :=
    ⟨fun h ↦ (h ▸ hperm b mode).nil_eq.symm, fun h ↦ (h ▸ hperm b mode).eq_nil⟩
  refine ⟨fun r ↦ hfree (by simp), fun t ↦ hfree (by simp), fun b ↦ (hperm b .shared).length_eq,
    fun b ↦ ?_, fun b ↦ ?_, fun queue name ↦ ?_⟩
  · rw [Lock.isExclusive_iff, hnil, (hperm b .exclusive).length_eq]
  · rw [Lock.isHeld_iff]
    exact exists_congr fun mode ↦ not_congr (hnil b mode)
  · refine List.any_eq_false.mpr fun i _ hw ↦ ?_
    simp only [wants, beq_iff_eq, Option.bind_eq_bind, Option.bind_eq_some_iff] at hw
    obtain ⟨call, hc, hw⟩ := hw
    obtain ⟨o, ho, -⟩ := hidle.outcome? (job?_eq_some.mpr ⟨call, hc, rfl⟩)
    simp [Job.wants, Job.outcome?_eq_some.mp ho] at hw

/-! ### What a registry tells -/

/-- A free registry tells at once whether it lists a key. -/
private theorem completes_tryContains {r : RegistryRef} (hhas : s.store.Has (.registry r))
    (hfree : s.store.lockOf (.registry r) = .free) (key : Key) (supply : Supply) :
    ∃ s', s.Completes supply (.roster r (.tryContains key))
      (.flag ((s.store.rosterOf r).contains key)) s' := by
  have hj : Job.ofRequest? s.store (.roster r (.tryContains key)) = _ :=
    Job.ofRequest?_eq_some.mpr (.roster hhas)
  exact ⟨_, completes_of_walks rfl hj
    (RosterCall.walks_of_tryContains rfl supply s.calls.size hhas (by rw [hfree]; rfl)) rfl⟩

/-- A key of another session is turned away at once, and no lock is taken for it. -/
theorem completes_foreign_add {r : RegistryRef} {key : Key}
    (hhas : s.store.Has (.registry r)) (hkey : key.session ≠ s.store.sessionOf r)
    (supply : Supply) :
    ∃ s', s.Completes supply (.roster r (.add key)) .misuse s' ∧ s'.store = s.store := by
  have hj : Job.ofRequest? s.store (.roster r (.add key)) = _ :=
    Job.ofRequest?_eq_some.mpr (.roster hhas)
  refine ⟨_, completes_of_walks (m := 0) rfl hj .rest ?_, rfl⟩
  simp [RosterCall.start, hkey, Job.outcome?, Job.progress, RosterCall.progress, Progress.map]

/-- However a call has ended, it holds the content under its guard and no other lock, also while
other calls are under way, and a key of another session is turned away without any lock. When no
call is under way nothing is locked but what guards keep locked, and a registry tells at once
whether it lists a key. -/
theorem locks_are_given_back (hr : Reachable limits s) :
    (∀ i o, s.outcome? i = some o → ∀ name mode, (s.store.lockOf name).Holds i mode ↔
      ∃ g, s.guard? i = some g ∧ name = .content g.handle.storage ∧ mode = g.mode) ∧
    (∀ r key supply, s.store.Has (.registry r) → key.session ≠ s.store.sessionOf r →
      ∃ s', s.Completes supply (.roster r (.add key)) .misuse s' ∧ s'.store = s.store) ∧
    (s.Idle → s.LockedByGuards ∧
      ∀ r key supply, s.store.Has (.registry r) →
        ∃ s', s.Completes supply (.roster r (.tryContains key))
          (.flag ((s.store.rosterOf r).contains key)) s') := by
  have hs := hr.sound
  refine ⟨fun i o ho name mode ↦ hs.holds_iff_guard? ho,
    fun r key supply hhas hkey ↦ completes_foreign_add hhas hkey supply, fun hidle ↦ ?_⟩
  have hlocked := hidle.lockedByGuards hs
  exact ⟨hlocked, fun r key supply hhas ↦
    completes_tryContains hhas (hlocked.registry r) key supply⟩

/-- A number is drawn again while its buffer is there, a buffer is freed and then missed by a free,
a lookup and an access, a key of another session is added, and two guards for reading are had on
the buffer that is left. -/
def refusedThenRead : History :=
  History.allocated ⟨7⟩ 4 4 ++ [(.addressable, .setNextId 0 ⟨0⟩)] ++
    History.call (.allocate 0 0 8 8) 2 13 ++ History.call (.free 0 0 ⟨5⟩) 3 7 ++
    History.call (.lookup 0 ⟨⟨7⟩, ⟨5⟩⟩ .shared) 4 5 ++
    History.call (.roster 0 (.add ⟨⟨8⟩, ⟨0⟩⟩)) 5 0 ++ History.call (.allocate 0 0 4 4) 6 14 ++
    History.call (.free 0 0 ⟨0⟩) 7 13 ++
    History.call (.access ⟨⟨⟨7⟩, ⟨0⟩⟩, 0⟩ .shared) 8 3 ++
    History.call (.lookup 0 ⟨⟨7⟩, ⟨1⟩⟩ .shared) 9 5 ++
    History.call (.access ⟨⟨⟨7⟩, ⟨1⟩⟩, 2⟩ .shared) 10 2

/-- After all the refusals the registry and the table are free, the buffer has the two readers, and
the registry tells that it lists its key. -/
theorem only_guards_left : ∃ s, (withTables [{}]).run? refusedThenRead = some s ∧
    s.outcome? 2 = some (.refused (.duplicateKey ⟨⟨7⟩, ⟨0⟩⟩)) ∧ s.outcome? 5 = some .misuse ∧
    s.outcome? 8 = some (.refused (.notFound ⟨⟨7⟩, ⟨0⟩⟩)) ∧
    (s.store.lockOf (.registry 0)).isHeld = false ∧ (s.store.lockOf (.table 0)).isHeld = false ∧
    ((s.store.lockOf (.content 2)).holders .shared).length = 2 ∧
    (s.store.lockOf (.content 2)).isExclusive = false ∧
    ∃ s', s.Completes .addressable (.roster 0 (.tryContains ⟨⟨7⟩, ⟨1⟩⟩)) (.flag true) s' := by
  have hrun : ((withTables [{}]).run? refusedThenRead).map (fun s ↦
      (s.calls.toList.all fun call ↦ call.job.outcome?.isSome, s.guardsOn 2 .shared,
        [s.outcome? 2, s.outcome? 5, s.outcome? 8], s.store.registries.size,
        (s.store.rosterOf 0).contains ⟨⟨7⟩, ⟨1⟩⟩)) =
      some (true, [9, 10], [some (.refused (.duplicateKey ⟨⟨7⟩, ⟨0⟩⟩)), some .misuse,
        some (.refused (.notFound ⟨⟨7⟩, ⟨0⟩⟩))], 1, true) := by
    decide +kernel
  obtain ⟨s, hs, h⟩ := Option.map_eq_some_iff.mp hrun
  simp only [Prod.mk.injEq, List.cons.injEq] at h
  obtain ⟨hall, hguards, ⟨h2, h5, h8, -⟩, hsize, hlists⟩ := h
  obtain ⟨-, -, hrest⟩ := locks_are_given_back ⟨refusedThenRead, hs⟩
  obtain ⟨hlocked, htells⟩ := hrest (idle_of_all hall)
  refine ⟨s, hs, h2, h5, h8, by rw [hlocked.registry]; rfl, by rw [hlocked.table]; rfl,
    by rw [hlocked.readers, hguards]; rfl, ?_, ?_⟩
  · rw [Bool.eq_false_iff, ne_eq, hlocked.exclusive, hguards]
    simp
  · rw [← hlists]
    exact htells 0 _ _ (Store.has_registry.mpr (by rw [hsize]; exact Nat.one_pos))

end Service

end SessionBuffers
