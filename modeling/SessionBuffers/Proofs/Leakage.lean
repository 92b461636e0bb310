import Mathlib.Algebra.BigOperators.Ring.Finset
import SessionBuffers.Proofs.Census
import SessionBuffers.Proofs.Conservation
import SessionBuffers.Proofs.Listing
import SessionBuffers.Proofs.Sequence

/-!
# Nothing is left of sessions that have ended

When a table is used through its sessions only, what is in its index is in the roster of the session
that has allocated it, or a call is about to put it there or to take it out of the index
(`Service.Traced`). So nothing is left of a session that has ended once no call is under way, and
nothing in the table once all its sessions have ended.
-/

namespace SessionBuffers

/-- Whether an access is on its way to not finding its buffer. -/
def Access.IsMissing (c : Access) (phase : Phase) : Prop :=
  phase = .lockContent ∨ phase = .check ∨ phase = .unlockReleased ∨
    phase = .ended (.refused (.notFound c.handle.key))

/-- An access by itself does not find what has been released. -/
theorem Access.walks_of_emptied {u : Store} (c : Access) (supply : Supply) (who : CallRef)
    (hhas : u.Has (.content c.handle.storage)) (hempty : (u.contentOf c.handle.storage).Emptied)
    (hadmits : (u.lockOf (.content c.handle.storage)).admits c.mode = true) :
    ∃ u', Job.Walks supply who 3 (.accessing c .lockContent) u
      (.accessing c (.ended (.refused (.notFound c.handle.key)))) u' := by
  obtain ⟨l, hl⟩ := Option.isSome_iff_exists.mp ((Lock.isSome_acquire? _ who c.mode).trans hadmits)
  have hhas' : (u.setLock (.content c.handle.storage) l).Has (.content c.handle.storage) := by
    simpa using hhas
  have hread : (Instr.readContent c.handle.storage fun content ↦ Job.accessing c
      (if content.released then .unlockReleased else .ended (.guard ⟨c.handle, c.mode⟩))).run
        supply who (u.setLock (.content c.handle.storage) l) =
      some (.accessing c .unlockReleased, u.setLock (.content c.handle.storage) l) := by
    refine Instr.run_readContent.mpr ⟨hhas', ?_, rfl⟩
    rw [Store.contentOf_setLock, if_pos hempty.released]
  have hrelease : (Instr.release (.content c.handle.storage)
      (Job.accessing c (.ended (.refused (.notFound c.handle.key))))).run supply who
        (u.setLock (.content c.handle.storage) l) = some (_, _) :=
    Instr.run_release.mpr ⟨hhas', rfl, rfl⟩
  exact ⟨_, .step rfl (Instr.run_acquire.mpr ⟨hhas, l, hl, rfl, rfl⟩)
    (.step rfl hread (.step rfl hrelease .rest))⟩

/-- How many buffers of a table a teardown says it has released. -/
def Job.reclaimed (t : TableRef) : Job → Nat
  | tearingDown d (.ended (.number n)) => if d.table = t then n else 0
  | _ => 0

/-- What a call that has ended has counted as reclaimed is what it says it has released. -/
theorem Job.counted_of_outcome? {job : Job} {o : Outcome} {t : TableRef}
    (ho : job.outcome? = some o) : job.counted t .reclaimed = job.reclaimed t := by
  have hn := Job.outcome?_eq_some.mp ho
  cases job with
  | tearingDown d phase =>
    cases phase with
    | ended q => cases q <;> simp [counted, reclaimed]
    | _ => cases hn
  | allocating a phase | freeing f phase =>
    unfold counted
    split <;> simp_all [reclaimed]
  | _ => rfl

namespace Service

variable {limits : List Limits} {supply : Supply} {s s' : Service} {action : Action} {h : History}
  {t : TableRef} {r : RegistryRef} {i : CallRef} {k : Key}

/-! ### Buffers are in the rosters of their sessions -/

/-- Whether every buffer in a table is listed by the registry it was allocated with. -/
def Traced (t : TableRef) (s : Service) : Prop :=
  ∀ (k : Key) (b : StorageRef), (s.store.indexOf t)[k]? = some b →
    ∃ a, s.Keeps a ⟨k, b⟩ ∧ a.table = t ∧ s.Lists a.registry k

/-- The registry of what has been allocated in a table is that of a session. -/
theorem Housed.session_of_keeps (hh : s.Housed t) {a : Allocation} {g : Handle}
    (hk : s.Keeps a g) (ht : a.table = t) : s.hasSession t a.registry = true := by
  obtain ⟨i, call, hc, hkept⟩ := hk
  have hplace : call.job.place? = some (a.table, a.registry) := by
    unfold Job.kept? at hkept
    split at hkept <;> cases hkept <;> simp [Job.place?, *]
  exact (hh.placed (job?_eq_some.mpr ⟨call, hc, rfl⟩) hplace).1 ht

/-- The registry of a session is used with the table of the session only. -/
theorem Housed.usedWith (hh : s.Housed t) (ho : s.owns t r = true) : s.UsedWith t r := by
  intro i job hj
  refine ⟨fun u hp ↦ (hh.placed hj hp).2 ho, Bool.eq_false_iff.mpr fun hedits ↦ ?_⟩
  have hnot := hh.spared hj hedits
  rw [ho] at hnot
  cases hnot

/-- When a table has been used through its sessions only, its buffers are listed. -/
theorem Reachable.traced (hs : Reachable limits s) (hh : s.Housed t) : s.Traced t := by
  intro k b hin
  obtain ⟨a, hk, ht⟩ := hs.sound.kept hin
  exact ⟨a, hk, ht, hs.lists (hh.usedWith (by simp [owns, hh.session_of_keeps hk ht])) hk hin⟩

/-! ### Which sessions have been asked to end -/

/-- Whether a session has ended, or a call is about to end it. -/
def IsEnding (s : Service) (c : SessionRef) : Prop :=
  (∃ i d, s.job? i = some (.tearingDown d (.finish c))) ∨
    ∃ x, s.store.sessions[c]? = some x ∧ x.ended = true

/-- A session comes to its end when somebody asks for it, and never comes back. -/
theorem Does.isEnding_iff {c : SessionRef} (hd : s.Does supply action s') :
    s'.IsEnding c ↔ s.IsEnding c ∨ action = .invoke (.endSession c) := by
  constructor
  · rintro (⟨i, d, hj⟩ | ⟨x, hc, he⟩)
    · obtain ⟨hold, -⟩ | ⟨request, rfl, hr, -⟩ | ⟨before, instr, -, -, hn, hr⟩ := hd.job_cases hj
      · exact .inl (.inl ⟨i, d, hold⟩)
      · cases Job.ofRequest?_eq_some.mp hr
        exact .inr rfl
      · cases before <;> obtain ⟨step, hp, rfl⟩ := Progress.map_eq_next.mp hn <;>
          obtain ⟨last, hrun, he⟩ := Instr.run_map_eq_some.mp hr <;> cases he
        exact absurd rfl (Teardown.not_finish_of_step hp hrun c)
    · obtain ⟨y, hy, -, -, he | ⟨i, d, -, hj⟩⟩ := hd.ended_cases hc he
      · exact .inl (.inr ⟨y, hy, he⟩)
      · exact .inl (.inl ⟨i, d, hj⟩)
  · rintro ((⟨i, d, hj⟩ | ⟨x, hc, he⟩) | rfl)
    · by_cases hstep : action = .step i
      · subst hstep
        obtain ⟨instr, next, hp, hr, -⟩ := hd.job_step hj
        cases hp
        have hsessions := Instr.sessions_of_run hr
        obtain ⟨x, hx, -⟩ := Instr.run_finish.mp hr
        refine .inr ⟨{ x with ended := true }, ?_, rfl⟩
        simp [hsessions, Instr.map, Instr.onSessions, Array.getElem?_modify, hx]
      · exact .inl ⟨i, d, hd.job_kept hj hstep⟩
    · obtain ⟨y, hy, -, -, hended⟩ := hd.session_kept hc
      exact .inr ⟨y, hy, hended he⟩
    · cases hd with
      | tend hk _ => cases hk
      | @invoke _ job hj =>
        cases Job.ofRequest?_eq_some.mp hj with
        | endSession hc hr => exact .inl ⟨s.calls.size, _, by simp [job?]; rfl⟩

theorem isEnding_of_run {c : SessionRef} (hr : s.run? h = some s') :
    s'.IsEnding c ↔ s.IsEnding c ∨ ∃ e ∈ h, e.2 = .invoke (.endSession c) := by
  induction h generalizing s with
  | nil =>
    cases hr
    simp
  | cons e h ih =>
    obtain ⟨-, v, hv, hr⟩ := run?_cons_eq_some.mp hr
    rw [ih hr, (does_of_act? hv).isEnding_iff]
    simp [or_assoc]

/-- When no call is under way, those sessions have ended that somebody has asked to end. -/
theorem Idle.ended_iff {c : SessionRef} {x : Session} (hidle : s.Idle)
    (hr : (withTables limits).run? h = some s) (hc : s.store.sessions[c]? = some x) :
    x.ended = true ↔ ∃ e ∈ h, e.2 = .invoke (.endSession c) := by
  have hnone : ¬ (withTables limits).IsEnding c := by
    simp [IsEnding, withTables, Store.withTables, job?]
  refine Iff.trans ?_ ((isEnding_of_run hr).trans (or_iff_right hnone))
  constructor
  · exact fun he ↦ .inr ⟨x, hc, he⟩
  · rintro (⟨i, d, hj⟩ | ⟨y, hy, he⟩)
    · exact absurd ⟨_, hj, rfl⟩ (hidle i)
    · cases hc.symm.trans hy
      exact he

/-! ### Buffers of sessions that have ended -/

/-- A call that has ended has no key to deal with. -/
theorem Idle.not_adds {job : Job} (hidle : s.Idle) (hj : s.job? i = some job) : ¬ job.Adds r k := by
  intro hadds
  obtain ⟨o, ho, -⟩ := hidle.outcome? hj
  obtain ⟨g, -, hname, -⟩ := Job.held_of_outcome? ho _ _ (Job.held_of_adds hadds)
  cases hname

/-- When no call is under way, a buffer is dead unless its session lists it. -/
theorem Idle.dead {a : Allocation} {g : Handle} (hidle : s.Idle) (hs : Reachable limits s)
    (hl : s.Traced t) (hk : s.Keeps a g) (ht : a.table = t)
    (hempty : (s.store.rosterOf a.registry).contains g.key = false) : s.IsAt t g .dead := by
  subst ht
  obtain ⟨x, hx⟩ := hs.isAt hk
  cases x with
  | dead => exact hx
  | live =>
    obtain ⟨c, hkept, -, hlists⟩ := hl _ _ hx.1
    obtain ⟨rfl, -⟩ := hs.sound.keeps_unique hk hkept rfl
    obtain hlisted | ⟨i, job, hj, hadds⟩ := hlists
    · rw [hempty] at hlisted
      cases hlisted
    · exact absurd hadds (hidle.not_adds hj)
  | leaving =>
    obtain ⟨i, ⟨call, hc, he⟩, -⟩ := hx.2.2
    obtain ⟨o, ho, -⟩ := hidle.outcome? (job?_eq_some.mpr ⟨call, hc, rfl⟩)
    have hnone := Job.owned?_of_outcome? ho
    rw [Job.owned?_of_erased? he] at hnone
    cases hnone

/-- The roster of a session that has ended is closed and empty when no call is under way. -/
theorem Attended.roster_of_idle (hat : s.Attended t) (hidle : s.Idle) (ho : s.owns t r = true) :
    (s.store.rosterOf r).closed = s.isOver t r ∧
      (s.isOver t r = true → ∀ k, (s.store.rosterOf r).contains k = false) := by
  have hequal := hat.closing r (.inl ho)
  have hzero : s.total (Job.closing r) = 0 := by
    refine hidle.total_eq_zero fun job o hend ↦ ?_
    cases job with
    | tearingDown d phase =>
      cases phase with
      | ended q => simp [Job.closing, Teardown.Phase.isClosing]
      | _ => cases Job.outcome?_eq_some.mp hend
    | _ => rfl
  have hclosed : (s.store.rosterOf r).closed = s.isOver t r := by
    rw [hzero, Int.zero_add] at hequal
    cases hc : (s.store.rosterOf r).closed <;> cases hover : s.isOver t r <;>
      simp_all
  refine ⟨hclosed, fun hover ↦ ?_⟩
  obtain hempty | ⟨i, d, b, hj, -⟩ := hat.emptied r (.inl ho) (hclosed.trans hover)
  · exact hempty
  · exact absurd ⟨_, hj, rfl⟩ (hidle i)

/-! ### Handles of released buffers -/

section Missing

variable {a : Allocation} {g : Handle} {c : Access} {phase : Access.Phase} {o : Outcome}

/-- Once a buffer is released, no access that is asked for then finds it. -/
theorem refused_of_emptied (hs : Reachable limits s) (hhas : s.store.Has (.content g.storage))
    (hempty : (s.store.contentOf g.storage).Emptied) (hr : s.run? h = some s')
    (hnew : s.job? i = none) (hj : s'.job? i = some (.accessing c (.ended o))) (hc : c.handle = g) :
    o = .refused (.notFound g.key) := by
  subst hc
  have hall : s'.Sound ∧ s'.store.Has (.content c.handle.storage) ∧
      (s'.store.contentOf c.handle.storage).Emptied ∧
      ∀ d phase, s'.job? i = some (.accessing d phase) → d.handle = c.handle →
        d.IsMissing phase := by
    refine run_induct (P := fun u ↦ u.Sound ∧ u.store.Has (.content c.handle.storage) ∧
      (u.store.contentOf c.handle.storage).Emptied ∧
      ∀ d phase, u.job? i = some (.accessing d phase) → d.handle = c.handle → d.IsMissing phase)
      ?_ ⟨hs.sound, hhas, hempty, fun d phase hj ↦ by rw [hnew] at hj; cases hj⟩ hr
    rintro u supply action u' ⟨hsound, hhas, hempty, hmissing⟩ hallows hact
    have hd := does_of_act? hact
    obtain ⟨hhas', hsame⟩ := hsound.released_kept hd hhas hempty.released
    refine ⟨hsound.of_does hallows hd, hhas', hsame ▸ hempty, fun d phase hj hc ↦ ?_⟩
    obtain ⟨hold, -⟩ | ⟨request, -, hrequest, -⟩ | ⟨before, instr, -, hbefore, hn, hrun⟩ :=
      hd.job_cases hj
    · exact hmissing d phase hold hc
    · cases Job.ofRequest?_eq_some.mp hrequest
      exact .inl rfl
    · cases before <;> obtain ⟨step, hp, rfl⟩ := Progress.map_eq_next.mp hn <;>
        obtain ⟨last, hx, he⟩ := Instr.run_map_eq_some.mp hrun <;> cases he
      next before =>
      obtain rfl | rfl | rfl | rfl := hmissing d before hbefore hc
      · cases hp
        obtain ⟨-, _, -, rfl, -⟩ := Instr.run_acquire.mp hx
        exact .inr (.inl rfl)
      · cases hp
        obtain ⟨-, rfl, -⟩ := Instr.run_readContent.mp hx
        rw [hc, if_pos hempty.released]
        exact .inr (.inr (.inl rfl))
      · cases hp
        obtain ⟨-, rfl, -⟩ := Instr.run_release.mp hx
        exact .inr (.inr (.inr rfl))
      · cases hp
  obtain h | h | h | h := hall.2.2.2 c _ hj rfl
  · cases h
  · cases h
  · cases h
  · exact Access.Phase.ended.inj h

/-- When no call is under way, an access to a released buffer comes to not finding it. -/
theorem Idle.completes_of_emptied (hidle : s.Idle) (hs : Reachable limits s) (hk : s.Keeps a g)
    (hhas : s.store.Has (.content g.storage)) (hempty : (s.store.contentOf g.storage).Emptied)
    (mode : Mode) (supply : Supply) :
    ∃ s', s.Completes supply (.access g mode) (.refused (.notFound g.key)) s' := by
  have hallows : s.allows (.invoke (.access g mode)) = true := by
    obtain ⟨j, call, hc, hkept⟩ := hk
    obtain ⟨o, ho, -⟩ := hidle.outcome? (job?_eq_some.mpr ⟨call, hc, rfl⟩)
    rw [Job.outcome_of_kept? hkept ho] at ho
    exact Array.any_eq_true'.mpr ⟨call, Array.mem_of_getElem? hc, by simp [ho]⟩
  -- Nobody has a guard of it, so the content is free.
  have hadmits : (s.store.lockOf (.content g.storage)).admits mode = true := by
    cases hl : (s.store.lockOf (.content g.storage)).admits mode with
    | true => rfl
    | false =>
      obtain ⟨j, m, hheld⟩ := Lock.exists_holds_of_not_admits hl
      obtain ⟨w, hguard, hname, -⟩ := hidle.guard?_of_holds hs.sound.locked hheld
      have hlive := hs.sound.live_of_guard? hguard
      rw [← LockName.content.inj hname, hempty.released] at hlive
      cases hlive
  obtain ⟨u, hw⟩ := Access.walks_of_emptied ⟨g, mode⟩ supply s.calls.size hhas hempty hadmits
  obtain ⟨storage, hb⟩ := Store.has_content_iff.mp hhas
  exact ⟨_, completes_of_walks hallows (by simp [Job.ofRequest?, hb]) hw rfl⟩

end Missing

/-! ### What the counters of a table come to -/

/-- How many buffers the teardowns of a table have released, as they say. -/
def reclaimed (s : Service) (t : TableRef) : Nat :=
  (s.calls.toList.map fun call ↦ call.job.reclaimed t).sum

/-- When no call is under way, calls have counted as reclaimed what teardowns have released. -/
theorem Idle.counted_reclaimed (hidle : s.Idle) : s.counted t .reclaimed = s.reclaimed t := by
  have hsame : s.counted t .reclaimed = s.total fun job ↦ (job.reclaimed t : Int) := by
    refine total_congr fun i job hj ↦ ?_
    obtain ⟨o, ho, -⟩ := hidle.outcome? hj
    rw [Job.counted_of_outcome? ho]
  rw [hsame, total, reclaimed, Nat.cast_list_sum, List.map_map]
  rfl

/-- The counters of a table after a history that uses it through its sessions only, in which nobody
edits them, and after which no call is under way. -/
theorem Idle.counters (hidle : s.Idle) (hr : (withTables limits).run? h = some s)
    (honly : (withTables limits).onlyThroughSessions t h = true)
    (hreset : ∀ e ∈ h, e.2 ≠ .resetCounters t)
    (hcount : ∀ e ∈ h, ∀ which amount, e.2 ≠ .count t which amount) :
    (s.store.countersOf t).sessionsOpened = .ofNat (s.opened t) ∧
      (s.store.countersOf t).sessionsClosed = .ofNat (s.finished t) ∧
      (s.store.countersOf t).buffersReclaimed = .ofNat (s.reclaimed t) ∧
      (s.store.countersOf t).allocations = (s.store.countersOf t).frees +
        (s.store.countersOf t).buffersReclaimed + .ofNat (s.store.indexOf t).size := by
  have hs : Reachable limits s := ⟨h, hr⟩
  obtain ⟨hopened, hover⟩ := (census_of_run (census_withTables limits t) ⟨[], rfl⟩
    (housed_withTables limits t) (attended_withTables limits t) hr honly hreset
      hcount).of_idle hidle
  have hfollows := (follows_withTables limits t).run hr hcount
  rw [lastReset_eq_none hreset] at hfollows
  obtain ⟨a, ha, hallocations⟩ := hfollows .inserted
  obtain ⟨f, hf, hfrees⟩ := hfollows .freed
  obtain ⟨c, hc, hreclaimed⟩ := hfollows .reclaimed
  simp only [Option.map_none, Option.getD_none, Int.zero_add, Passage.counter, Counters.get] at *
  have hstanding := standing_of_waiting (t := t) fun i hi ↦ absurd hi (hidle i)
  rw [hidle.total_released, ← hs.counted_eq_standing] at hstanding
  have hsum : a = f + c + (s.store.indexOf t).size := by omega
  refine ⟨hopened, hover, ?_, ?_⟩
  · rw [hreclaimed, Int.ofNat_inj.mp (hc.symm.trans hidle.counted_reclaimed)]
  · rw [hallocations, hfrees, hreclaimed, hsum, UInt64.ofNat_add, UInt64.ofNat_add]

/-! ### Sessions over a whole history -/

/-- When no call is under way, the roster of a session is closed just when it has ended, and then
nothing of the session is left. -/
theorem Idle.session_of_run {c : SessionRef} {x : Session} (hidle : s.Idle)
    (hr : (withTables limits).run? h = some s)
    (honly : (withTables limits).onlyThroughSessions t h = true)
    (hc : s.store.sessions[c]? = some x) (ht : x.table = t) :
    (s.store.rosterOf x.registry).closed = x.ended ∧
      (x.ended = true → (∀ k, (s.store.rosterOf x.registry).contains k = false) ∧
        ∀ a g, s.Keeps a g → a.table = t → a.registry = x.registry → s.IsAt t g .dead) := by
  have hs : Reachable limits s := ⟨h, hr⟩
  have hh := housed_withTables limits t
  obtain ⟨hhoused, hat⟩ := attended_of_run ⟨[], rfl⟩ hh (attended_withTables limits t) hr honly
  have howns : s.owns t x.registry = true := by
    simp [owns, hasSession_iff.mpr ⟨c, x, hc, ht, rfl⟩]
  have hover : s.isOver t x.registry = x.ended := ht ▸ hs.apart.isOver_eq hc
  obtain ⟨hclosed, hempty⟩ := hat.roster_of_idle hidle howns
  rw [hover] at hclosed hempty
  refine ⟨hclosed, fun he ↦ ⟨hempty he, fun a g hk ha hregistry ↦ ?_⟩⟩
  exact hidle.dead hs (hs.traced hhoused) hk ha (hregistry ▸ hempty he g.key)

/-- Whether all sessions of a table have ended. -/
def AllEnded (s : Service) (t : TableRef) : Prop :=
  ∀ (c : SessionRef) (x : Session), s.store.sessions[c]? = some x → x.table = t → x.ended = true

/-- A table that has been used through its sessions only is empty when they all have ended and no
call is under way. -/
theorem Idle.index_eq_empty (hidle : s.Idle) (hr : (withTables limits).run? h = some s)
    (honly : (withTables limits).onlyThroughSessions t h = true)
    (hover : s.AllEnded t) :
    s.store.indexOf t = ∅ ∧ ∀ a g, s.Keeps a g → a.table = t → s.IsAt t g .dead := by
  have hs : Reachable limits s := ⟨h, hr⟩
  have hh := housed_withTables limits t
  obtain ⟨hhoused, -⟩ := attended_of_run ⟨[], rfl⟩ hh (attended_withTables limits t) hr honly
  have hdead : ∀ a g, s.Keeps a g → a.table = t → s.IsAt t g .dead := by
    intro a g hk ht
    obtain ⟨c, x, hc, hx, hregistry⟩ := hasSession_iff.mp (hhoused.session_of_keeps hk ht)
    obtain ⟨-, hleft⟩ := hidle.session_of_run hr honly hc hx
    exact (hleft (hover c x hc hx)).2 a g hk ht hregistry.symm
  refine ⟨Std.ExtTreeMap.ext_getElem? fun k ↦ ?_, hdead⟩
  cases hin : (s.store.indexOf t)[k]? with
  | none => simp
  | some b =>
    obtain ⟨a, hk, ht⟩ := hs.sound.kept hin
    exact absurd hin ((hdead a _ hk ht).1 t k)

/-- Sessions leak nothing. Suppose a table is used through its sessions only. Then no session's
registry is torn down twice. When no call is under way, those sessions have ended that somebody has
asked to end, and their registries have been torn down once; a session that has ended has an empty
roster, and none of its buffers is left; and unless somebody edits them, the counters of sessions
are the numbers of sessions, and the counter of reclaimed buffers is the sum of what teardowns have
released. Once all sessions have ended besides, the table is empty, every buffer allocated in it has
been released, no access to one finds it, now or later, and the buffers allocated are those freed
and those reclaimed. -/
theorem sessions_leak_nothing (hr : (withTables limits).run? h = some s)
    (honly : (withTables limits).onlyThroughSessions t h = true) :
    (∀ r, s.hasSession t r = true → ((withTables limits).closings h).count r ≤ 1) ∧
    (s.Idle →
      (∀ a g, s.Keeps a g → a.table = t → s.hasSession t a.registry = true) ∧
      (∀ (c : SessionRef) (x : Session), s.store.sessions[c]? = some x → x.table = t →
        (x.ended = true ↔ ∃ e ∈ h, e.2 = .invoke (.endSession c)) ∧
        ((withTables limits).closings h).count x.registry = x.ended.toNat ∧
        (x.ended = true → (∀ k, (s.store.rosterOf x.registry).contains k = false) ∧
          ∀ a g, s.Keeps a g → a.table = t → a.registry = x.registry → s.IsAt t g .dead)) ∧
      ((∀ e ∈ h, e.2 ≠ .resetCounters t) →
        (∀ e ∈ h, ∀ which amount, e.2 ≠ .count t which amount) →
        (s.store.countersOf t).sessionsOpened = .ofNat (s.opened t) ∧
        (s.store.countersOf t).sessionsClosed = .ofNat (s.finished t) ∧
        (s.store.countersOf t).buffersReclaimed = .ofNat (s.reclaimed t)) ∧
      (s.AllEnded t →
        s.store.indexOf t = ∅ ∧
        (∀ a g, s.Keeps a g → a.table = t → s.IsAt t g .dead ∧
          (∀ mode supply, ∃ s', s.Completes supply (.access g mode)
            (.refused (.notFound g.key)) s') ∧
          ∀ later s' i c o, s.run? later = some s' → s.job? i = none →
            s'.job? i = some (.accessing c (.ended o)) → c.handle = g →
              o = .refused (.notFound g.key)) ∧
        ((∀ e ∈ h, e.2 ≠ .resetCounters t) →
          (∀ e ∈ h, ∀ which amount, e.2 ≠ .count t which amount) →
          (s.store.countersOf t).allocations =
            (s.store.countersOf t).frees + (s.store.countersOf t).buffersReclaimed))) := by
  have hs : Reachable limits s := ⟨h, hr⟩
  have hh := housed_withTables limits t
  have hat := attended_withTables limits t
  obtain ⟨hhoused, -⟩ := attended_of_run ⟨[], rfl⟩ hh hat hr honly
  have hcount (r : RegistryRef) (hsession : s.hasSession t r = true) :
      ((withTables limits).closings h).count r = (s.store.rosterOf r).closed.toNat :=
    hat.count_closings hh ⟨[], rfl⟩ hr honly (.inl (by simp [owns, hsession]))
  refine ⟨fun r hsession ↦ ?_, fun hidle ↦ ⟨fun a g ↦ hhoused.session_of_keeps, ?_, ?_, ?_⟩⟩
  · rw [hcount r hsession]
    exact Bool.toNat_le _
  · intro c x hc ht
    obtain ⟨hclosed, hleft⟩ := hidle.session_of_run hr honly hc ht
    refine ⟨hidle.ended_iff hr hc, ?_, hleft⟩
    rw [hcount _ (hasSession_iff.mpr ⟨c, x, hc, ht, rfl⟩), hclosed]
  · intro hreset hcounters
    obtain ⟨hopened, hover, hreclaimed, -⟩ := hidle.counters hr honly hreset hcounters
    exact ⟨hopened, hover, hreclaimed⟩
  · intro hover
    obtain ⟨hempty, hdead⟩ := hidle.index_eq_empty hr honly hover
    refine ⟨hempty, fun a g hk ht ↦ ?_, fun hreset hcounters ↦ ?_⟩
    · obtain ⟨hout, hhas, hleft⟩ := hdead a g hk ht
      exact ⟨⟨hout, hhas, hleft⟩, hidle.completes_of_emptied hs hk hhas hleft,
        fun later s' i c o hlater hnew hj hc ↦ refused_of_emptied hs hhas hleft hlater hnew hj hc⟩
    · obtain ⟨-, -, -, hallocations⟩ := hidle.counters hr honly hreset hcounters
      rw [hallocations, hempty]
      simp

/-- A session is opened, a buffer is allocated through it, and it is ended twice. -/
def endedTwice : History :=
  .call (.attach ⟨⟨7⟩, .session 0⟩) 0 5 ++ .call (.allocate 0 0 4 4) 1 14 ++
    .call (.endSession 0) 2 15 ++ .call (.endSession 0) 3 1

/-- The session has been torn down once, and its buffer is not found any more. -/
theorem ended_session_leaves_nothing : ∃ s, (withTables [{}]).run? endedTwice = some s ∧
    ((withTables [{}]).closings endedTwice).count 0 = 1 ∧ s.store.indexOf 0 = ∅ ∧
    (s.store.countersOf 0).allocations =
      (s.store.countersOf 0).frees + (s.store.countersOf 0).buffersReclaimed ∧
    ∃ s', s.Completes .addressable (.access ⟨⟨⟨7⟩, ⟨0⟩⟩, 0⟩ .shared)
      (.refused (.notFound ⟨⟨7⟩, ⟨0⟩⟩)) s' := by
  have hrun : ((withTables [{}]).run? endedTwice).map (fun s ↦
      (s.calls.toList.all fun call ↦ call.job.outcome?.isSome,
        s.store.sessions.toList.map fun x ↦ (x.table, x.registry, x.ended), s.job? 1)) =
      some (true, [(0, 0, true)],
        some (.allocating ⟨0, 0, ⟨7⟩, 4, 4⟩ (.ended (.handle ⟨⟨⟨7⟩, ⟨0⟩⟩, 0⟩)))) := by
    decide +kernel
  have honly : (withTables [{}]).onlyThroughSessions 0 endedTwice = true := by decide +kernel
  have huntended : ∀ e ∈ endedTwice, e.2.isTending = false := by decide +kernel
  obtain ⟨s, hs, h⟩ := Option.map_eq_some_iff.mp hrun
  simp only [Prod.mk.injEq] at h
  obtain ⟨hall, hsessions, hjob⟩ := h
  have hended : ∀ x ∈ s.store.sessions, x.table = 0 ∧ x.registry = 0 ∧ x.ended = true := by
    intro x hx
    have hmem := List.mem_map_of_mem (f := fun x ↦ (x.table, x.registry, x.ended))
      (Array.mem_toList_iff.mpr hx)
    simpa [hsessions] using hmem
  obtain ⟨x, hx⟩ : ∃ x, s.store.sessions[0]? = some x := by
    rw [← Array.getElem?_toList]
    cases hl : s.store.sessions.toList with
    | nil => simp [hl] at hsessions
    | cons x xs => exact ⟨x, rfl⟩
  obtain ⟨htable, hregistry, hx'⟩ := hended x (Array.mem_of_getElem? hx)
  obtain ⟨call, hc, hjob⟩ := job?_eq_some.mp hjob
  obtain ⟨-, hafter⟩ := sessions_leak_nothing hs honly
  obtain ⟨-, hsession, -, hleft⟩ := hafter (idle_of_all hall)
  obtain ⟨-, hcount, -⟩ := hsession 0 x hx htable
  obtain ⟨hempty, hgone, hcounters⟩ :=
    hleft fun c x hc _ ↦ (hended x (Array.mem_of_getElem? hc)).2.2
  obtain ⟨-, hrefused, -⟩ := hgone ⟨0, 0, ⟨7⟩, 4, 4⟩ ⟨⟨⟨7⟩, ⟨0⟩⟩, 0⟩
    ⟨1, call, hc, by rw [hjob]; rfl⟩ rfl
  rw [hregistry, hx'] at hcount
  refine ⟨s, hs, hcount, hempty, hcounters ?_ ?_, hrefused .shared .addressable⟩
  · intro e he hk
    simpa [hk, Action.isTending] using huntended e he
  · intro e he which amount hk
    simpa [hk, Action.isTending] using huntended e he

end Service

end SessionBuffers
