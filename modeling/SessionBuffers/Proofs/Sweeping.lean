import SessionBuffers.Proofs.Territory

/-!
# A teardown under way

From the moment a teardown has its registry and its table until it gives the first of them back,
nobody else can read or change the roster or the index. So what it finds in the index at a listed
key is what was there at that moment, less what it has taken out itself, whatever other calls do in
between with the contents of the buffers to come (`Teardown.Follows`).
-/

namespace SessionBuffers

/-- Whether content is there and has been given up. -/
def Store.Gone (s : Store) (b : StorageRef) : Prop :=
  s.Has (.content b) ∧ (s.contentOf b).Emptied

namespace Teardown

variable {d : Teardown} {supply : Supply} {i : CallRef} {l s s' : Store} {w : Sweep}
  {phase x : Phase} {instr : Instr Phase} {key k : Key} {b : StorageRef} {keys now out : List Key}
  {ms : List Mark}

/-! ### What there is to take out -/

/-- The keys that a teardown finds listed, in ascending order. -/
def listed (d : Teardown) (s : Store) : List Key := (s.rosterOf d.registry).toList

/-- How many of the listed keys a teardown finds in the index of its table. -/
def found (d : Teardown) (s : Store) : Nat :=
  ((d.listed s).filter (s.indexOf d.table).contains).length

theorem nodup_listed (d : Teardown) (s : Store) : (d.listed s).Nodup := Roster.nodup_toList _

/-- The marks of a teardown that takes out what its table had in `l` under some keys, in order. -/
def reclaims (d : Teardown) (i : CallRef) (l : Store) (keys : List Key) : List Mark :=
  keys.filterMap fun k ↦ (l.indexOf d.table)[k]?.map fun b ↦ ⟨i, .reclaimed, d.table, ⟨k, b⟩⟩

theorem reclaims_concat_of_some (h : (l.indexOf d.table)[key]? = some b) :
    d.reclaims i l (keys ++ [key]) =
      d.reclaims i l keys ++ [⟨i, .reclaimed, d.table, ⟨key, b⟩⟩] := by
  simp [reclaims, List.filterMap_append, h]

theorem reclaims_concat_of_none (h : (l.indexOf d.table)[key]? = none) :
    d.reclaims i l (keys ++ [key]) = d.reclaims i l keys := by
  simp [reclaims, List.filterMap_append, h]

/-! ### Positions -/

/-- The key that a sweep is at, if there is one, and the sweep, while nothing is given back. -/
def Phase.sweep? : Phase → Option (List Key × Sweep)
  | find key w | reportMissing key w | lockContent key _ w | erase key _ w | dispose key _ w
  | unlockContent key _ w => some ([key], w)
  | unlockRegistry w => some ([], w)
  | _ => none

/-- What a sweep that began when the store was `l` has done when it is at the keys `now`: the keys
passed are the first of the roster, what the table had under them is gone, and is counted. -/
structure Sweeps (d : Teardown) (l s : Store) (now : List Key) (w : Sweep) : Prop where
  first : w.first = !(l.rosterOf d.registry).closed
  keys : w.passed.reverse ++ now ++ w.todo = d.listed l
  released : w.released = (w.passed.reverse.filter (l.indexOf d.table).contains).length
  gone : ∀ k ∈ w.passed, ∀ b, (l.indexOf d.table)[k]? = some b → s.Gone b

/-- What the registry and the table look like to a teardown that has emptied the roster and taken
out what there was under the keys `out`. -/
structure Finds (d : Teardown) (l s : Store) (out : List Key) : Prop where
  roster : s.rosterOf d.registry = (l.rosterOf d.registry).close.drained
  index : ∀ k, (s.indexOf d.table)[k]? = if k ∈ out then none else (l.indexOf d.table)[k]?

/-- How a teardown stands, by position, that got its locks when the store was `l` and has left the
marks `ms` since. -/
def Follows (d : Teardown) (i : CallRef) (l s : Store) (ms : List Mark) : Phase → Prop
  | .close => s.rosterOf d.registry = l.rosterOf d.registry ∧
    s.indexOf d.table = l.indexOf d.table ∧ ms = []
  | .drain first => first = (!(l.rosterOf d.registry).closed) ∧
    s.rosterOf d.registry = (l.rosterOf d.registry).close ∧
    s.indexOf d.table = l.indexOf d.table ∧ ms = []
  | .find key w => d.Sweeps l s [key] w ∧ d.Finds l s w.passed ∧
    ms = d.reclaims i l w.passed.reverse
  | .reportMissing key w => d.Sweeps l s [key] w ∧ d.Finds l s w.passed ∧
    (l.indexOf d.table)[key]? = none ∧ ms = d.reclaims i l w.passed.reverse
  | .lockContent key b w | .erase key b w => d.Sweeps l s [key] w ∧ d.Finds l s w.passed ∧
    (l.indexOf d.table)[key]? = some b ∧ ms = d.reclaims i l w.passed.reverse
  | .dispose key b w => d.Sweeps l s [key] w ∧ d.Finds l s (key :: w.passed) ∧
    (l.indexOf d.table)[key]? = some b ∧ ms = d.reclaims i l (key :: w.passed).reverse
  | .unlockContent key b w => d.Sweeps l s [key] w ∧ d.Finds l s (key :: w.passed) ∧
    (l.indexOf d.table)[key]? = some b ∧ s.Gone b ∧ ms = d.reclaims i l (key :: w.passed).reverse
  | .unlockRegistry w => d.Sweeps l s [] w ∧ d.Finds l s w.passed ∧ w.todo = [] ∧
    ms = d.reclaims i l w.passed.reverse
  | .unlockTable w | .countReleased w | .countClosed w | .report w => d.Sweeps l s [] w ∧
    w.todo = [] ∧ ms = d.reclaims i l w.passed.reverse
  | .ended o => ∃ w, d.Sweeps l s [] w ∧ w.todo = [] ∧ ms = d.reclaims i l w.passed.reverse ∧
    o = .number w.released
  | _ => False

/-! ### What others leave alone -/

theorem Sweeps.mono (h : d.Sweeps l s now w) (hgone : ∀ b, s.Gone b → s'.Gone b) :
    d.Sweeps l s' now w :=
  { h with gone := fun k hk b hb ↦ hgone b (h.gone k hk b hb) }

theorem Finds.congr (h : d.Finds l s out)
    (hr : s'.rosterOf d.registry = s.rosterOf d.registry)
    (hi : s'.indexOf d.table = s.indexOf d.table) : d.Finds l s' out :=
  ⟨hr.trans h.roster, fun k ↦ by rw [hi, h.index]⟩

/-- A teardown stands as before while the places it has locked do not change, and what is gone
stays gone. -/
theorem Follows.congr (h : d.Follows i l s ms phase) (hgone : ∀ b, s.Gone b → s'.Gone b)
    (hr : (.registry d.registry, .exclusive) ∈ d.held phase →
      s'.rosterOf d.registry = s.rosterOf d.registry)
    (hi : (.table d.table, .exclusive) ∈ d.held phase →
      s'.indexOf d.table = s.indexOf d.table) : d.Follows i l s' ms phase := by
  cases phase with
  | finish c | lockRegistry | lockTable => exact h
  | close | drain first =>
    have hr := hr (by simp [held])
    have hi := hi (by simp [held])
    simpa only [Follows, hr, hi] using h
  | find key w | unlockRegistry w | reportMissing key w | lockContent key b w | erase key b w
  | dispose key b w =>
    exact ⟨h.1.mono hgone, h.2.1.congr (hr (by simp [held])) (hi (by simp [held])), h.2.2⟩
  | unlockContent key b w =>
    exact ⟨h.1.mono hgone, h.2.1.congr (hr (by simp [held])) (hi (by simp [held])), h.2.2.1,
      hgone b h.2.2.2.1, h.2.2.2.2⟩
  | unlockTable w | countReleased w | countClosed w | report w => exact ⟨h.1.mono hgone, h.2⟩
  | ended o =>
    obtain ⟨w, hw, hrest⟩ := h
    exact ⟨w, hw.mono hgone, hrest⟩

/-! ### The steps of the teardown -/

theorem Sweeps.not_mem_passed (h : d.Sweeps l s [key] w) : key ∉ w.passed := by
  have hnodup := d.nodup_listed l
  rw [← h.keys, List.append_assoc, List.nodup_append] at hnodup
  exact fun hmem ↦ hnodup.2.2 key (by simpa using hmem) key (by simp) rfl

/-- Past a key that the table never had. -/
theorem Sweeps.skip (h : d.Sweeps l s [key] w) (hk : (l.indexOf d.table)[key]? = none) :
    d.Sweeps l s [] (w.skip key) where
  first := h.first
  keys := by simpa [Sweep.skip] using h.keys
  released := by simpa [Sweep.skip, Index.not_contains_iff.mpr hk] using h.released
  gone k hmem b hb := by
    obtain rfl | hmem := List.mem_cons.mp hmem
    · cases hk.symm.trans hb
    · exact h.gone k hmem b hb

/-- Past a key whose buffer is gone. -/
theorem Sweeps.take (h : d.Sweeps l s [key] w) (hk : (l.indexOf d.table)[key]? = some b)
    (hb : s.Gone b) : d.Sweeps l s [] (w.take key) where
  first := h.first
  keys := by simpa [Sweep.take] using h.keys
  released := by simp [Sweep.take, Index.contains_iff.mpr ⟨b, hk⟩, h.released]
  gone k hmem c hc := by
    obtain rfl | hmem := List.mem_cons.mp hmem
    · cases hk.symm.trans hc
      exact hb
    · exact h.gone k hmem c hc

theorem Finds.skip (h : d.Finds l s out) (hk : (l.indexOf d.table)[key]? = none) :
    d.Finds l s (key :: out) where
  roster := h.roster
  index k := by
    rw [h.index]
    by_cases he : k = key
    · simp [he, hk]
    · simp [he]

/-- A sweep goes on at its next key, or is past its last one. -/
theorem Sweeps.resume (h : d.Sweeps l s [] w) (hf : d.Finds l s w.passed) :
    d.Follows i l s (d.reclaims i l w.passed.reverse) (.resume w) := by
  cases htodo : w.todo with
  | nil =>
    rw [Phase.resume, htodo]
    exact ⟨h, hf, htodo, rfl⟩
  | cons key todo =>
    rw [Phase.resume, htodo]
    exact ⟨⟨h.first, by simpa [htodo] using h.keys, h.released, h.gone⟩, hf, rfl⟩

/-- A teardown stands as its position says after every step of its own. -/
theorem Follows.step (h : d.Follows i l s ms phase) (hgone : ∀ b, s.Gone b → s'.Gone b)
    (hp : d.progress phase = .next instr) (hr : instr.run supply i s = some (x, s')) :
    d.Follows i l s' (ms ++ ((Job.tearingDown d phase).mark? s i).toList) x := by
  have hc := Instr.changes_of_run hr
  cases phase with
  | finish c | lockRegistry | lockTable => exact h.elim
  | ended o => cases hp
  | close =>
    cases hp
    obtain ⟨-, rfl, -⟩ := Instr.run_close.mp hr
    obtain ⟨hroster, hindex, rfl⟩ := h
    refine ⟨by rw [hroster], ?_, (hc.index _).trans hindex, rfl⟩
    rw [hc.roster, hroster, Instr.onRoster, if_pos rfl]
  | drain first =>
    cases hp
    obtain ⟨-, rfl, -⟩ := Instr.run_drain.mp hr
    obtain ⟨hfirst, hroster, hindex, rfl⟩ := h
    refine Sweeps.resume (w := .start first _) ⟨hfirst, ?_, rfl, by simp [Sweep.start]⟩ ⟨?_, ?_⟩
    · simp [Sweep.start, listed, hroster, Roster.toList, Roster.close]
    · rw [hc.roster, hroster, Instr.onRoster, if_pos rfl]
    · simp [Sweep.start, hc.index, hindex, Instr.onIndex]
  | find key w =>
    cases hp
    obtain ⟨-, rfl, rfl⟩ := Instr.run_readIndex.mp hr
    obtain ⟨hw, hf, rfl⟩ := h
    have hsame := hf.index key
    rw [if_neg hw.not_mem_passed] at hsame
    split
    · next b hb => exact ⟨hw, hf, hsame.symm.trans hb, by simp [Job.mark?]⟩
    · next hnone => exact ⟨hw, hf, hsame.symm.trans hnone, by simp [Job.mark?]⟩
  | reportMissing key w =>
    cases hp
    obtain ⟨rfl, rfl⟩ := Instr.run_log.mp hr
    obtain ⟨hw, hf, hk, rfl⟩ := h
    have hmarks : d.reclaims i l (w.skip key).passed.reverse = d.reclaims i l w.passed.reverse := by
      simpa [Sweep.skip] using reclaims_concat_of_none hk
    rw [← hmarks, show (Job.mark? s i (.tearingDown d (.reportMissing key w))).toList = [] from rfl,
      List.append_nil]
    exact ((hw.skip hk).mono hgone).resume ((hf.skip hk).congr rfl rfl)
  | lockContent key b w =>
    cases hp
    obtain ⟨-, _, -, rfl, -⟩ := Instr.run_acquire.mp hr
    obtain ⟨hw, hf, hk, rfl⟩ := h
    exact ⟨hw.mono hgone, hf.congr (hc.roster _) (hc.index _), hk, by simp [Job.mark?]⟩
  | erase key b w =>
    cases hp
    obtain ⟨-, rfl, -⟩ := Instr.run_erase.mp hr
    obtain ⟨hw, hf, hk, rfl⟩ := h
    refine ⟨hw.mono hgone, ⟨(hc.roster _).trans hf.roster, fun k ↦ ?_⟩, hk, ?_⟩
    · rw [hc.index, Instr.onIndex, if_pos rfl, Index.getElem?_erase, hf.index]
      by_cases he : key = k
      · simp [he]
      · simp [he, Ne.symm he]
    · rw [List.reverse_cons, reclaims_concat_of_some hk]
      rfl
  | dispose key b w =>
    cases hp
    obtain ⟨hhas, rfl, -⟩ := Instr.run_dispose.mp hr
    obtain ⟨hw, hf, hk, rfl⟩ := h
    refine ⟨hw.mono hgone, hf.congr (hc.roster _) (hc.index _), hk, ⟨hc.has _ hhas, ?_⟩,
      by simp [Job.mark?]⟩
    rw [hc.content b hhas, Instr.onContent, if_pos rfl]
    exact Content.emptied_gone
  | unlockContent key b w =>
    cases hp
    obtain ⟨-, rfl, -⟩ := Instr.run_release.mp hr
    obtain ⟨hw, hf, hk, hb, rfl⟩ := h
    rw [show (Job.mark? s i (.tearingDown d (.unlockContent key b w))).toList = [] from rfl,
      List.append_nil]
    exact ((hw.take hk hb).mono hgone).resume (hf.congr (hc.roster _) (hc.index _))
  | unlockRegistry w =>
    cases hp
    obtain ⟨-, rfl, -⟩ := Instr.run_release.mp hr
    exact ⟨h.1.mono hgone, h.2.2.1, by simp [Job.mark?, h.2.2.2]⟩
  | unlockTable w =>
    cases hp
    obtain ⟨-, rfl, -⟩ := Instr.run_release.mp hr
    exact ⟨h.1.mono hgone, h.2.1, by simp [Job.mark?, h.2.2]⟩
  | countReleased w =>
    cases hp
    obtain ⟨-, rfl, -⟩ := Instr.run_count.mp hr
    split <;> exact ⟨h.1.mono hgone, h.2.1, by simp [Job.mark?, h.2.2]⟩
  | countClosed w =>
    cases hp
    obtain ⟨-, rfl, -⟩ := Instr.run_count.mp hr
    exact ⟨h.1.mono hgone, h.2.1, by simp [Job.mark?, h.2.2]⟩
  | report w =>
    cases hp
    obtain ⟨rfl, -⟩ := Instr.run_log.mp hr
    exact ⟨w, h.1.mono hgone, h.2.1, by simp [Job.mark?, h.2.2], rfl⟩

/-- What a sweep has locked beside its registry and its table is the content of the key it is at. -/
theorem Follows.key_of_held {mode : Mode} (h : d.Follows i l s ms phase)
    (hw : phase.sweep? = some (now, w)) (hh : (.content b, mode) ∈ d.held phase) :
    ∃ key ∈ now, (l.indexOf d.table)[key]? = some b := by
  cases phase <;> cases hw <;> grind [held, Follows]

/-- While nothing is given back, a sweep finds the roster empty and has taken out what it passed. -/
theorem Follows.finds (h : d.Follows i l s ms phase) (hw : phase.sweep? = some (now, w)) :
    d.Sweeps l s now w ∧ ∃ out, d.Finds l s out ∧ (∀ k ∈ w.passed, k ∈ out) ∧
      ∀ k ∈ out, k ∈ w.passed ∨ k ∈ now := by
  cases phase <;> cases hw <;> exact ⟨h.1, _, h.2.1, by grind, by grind⟩

/-- In the end a teardown has taken out what was found under the listed keys, and tells how much. -/
theorem Follows.of_ended {o : Outcome} (h : d.Follows i l s ms phase)
    (ho : (Job.tearingDown d phase).outcome? = some o) :
    o = .number (d.found l) ∧ ms = d.reclaims i l (d.listed l) ∧
      ∀ k ∈ d.listed l, ∀ b, (l.indexOf d.table)[k]? = some b → s.Gone b := by
  rw [Job.outcome?_eq_some] at ho
  cases phase <;> cases ho
  obtain ⟨w, hw, htodo, rfl, rfl⟩ := h
  have hkeys : w.passed.reverse = d.listed l := by simpa [htodo] using hw.keys
  refine ⟨by rw [hw.released, hkeys, found], by rw [hkeys], fun k hk ↦ hw.gone k ?_⟩
  rw [← hkeys] at hk
  exact List.mem_reverse.mp hk

end Teardown

namespace Service

variable {limits : List Limits} {supply : Supply} {s₀ s s' : Service} {action : Action}
  {h : History} {i : CallRef} {d : Teardown} {phase : Teardown.Phase} {l : Store} {ms : List Mark}
  {b : StorageRef} {now : List Key} {w : Teardown.Sweep} {o : Outcome}

/-! ### Whatever the others do -/

/-- What is gone stays gone. -/
theorem Sound.gone_kept (hs : s.Sound) (hd : s.Does supply action s') (hb : s.store.Gone b) :
    s'.store.Gone b := by
  obtain ⟨hhas, hsame⟩ := hs.released_kept hd hb.1 hb.2.released
  exact ⟨hhas, hsame ▸ hb.2⟩

/-- A teardown stands as its position says after every action. -/
private theorem follows_of_does (hs : s.Sound) (hd : s.Does supply action s')
    (hj : s.job? i = some (.tearingDown d phase)) (hf : d.Follows i l s.store ms phase) :
    ∃ next, s'.job? i = some (.tearingDown d next) ∧ d.Follows i l s'.store
      (ms ++ if action = .step i then (s.mark? action).toList else []) next := by
  have hgone (b : StorageRef) : s.store.Gone b → s'.store.Gone b := hs.gone_kept hd
  by_cases hstep : action = .step i
  · subst hstep
    obtain ⟨instr, x, hp, hx, hj'⟩ := hd.teardown_step hj
    refine ⟨x, hj', ?_⟩
    rw [if_pos rfl, mark?, hj, Option.bind_some]
    exact hf.step hgone hp hx
  · refine ⟨phase, hd.job_kept hj hstep, ?_⟩
    rw [if_neg hstep, List.append_nil]
    exact hf.congr hgone
      (fun hh ↦ hs.locked.roster_kept hd (hs.locked.holds_of_held hj (by simp) hh) hstep)
      fun hh ↦ hs.locked.index_kept hd (hs.locked.holds_of_held hj (by simp) hh) hstep

theorem follows_of_run (hs : Reachable limits s) (hr : s.run? h = some s')
    (hj : s.job? i = some (.tearingDown d phase)) (hf : d.Follows i l s.store ms phase) :
    ∃ next, s'.job? i = some (.tearingDown d next) ∧
      d.Follows i l s'.store (ms ++ s.marksOf h i) next := by
  induction h generalizing s ms phase with
  | nil =>
    cases hr
    exact ⟨phase, hj, by simpa [marksOf, marks] using hf⟩
  | cons e h ih =>
    obtain ⟨ha, u, hact, hr⟩ := run?_cons_eq_some.mp hr
    obtain ⟨next, hj', hf'⟩ := follows_of_does hs.sound (does_of_act? hact) hj hf
    rw [marksOf_cons hact, ← List.append_assoc]
    exact ih (hs.act ha hact) hr hj' hf'

/-- A teardown that has just got its locks follows the store as it is. -/
theorem follows_of_close (hs : Reachable limits s) (hr : s.run? h = some s')
    (hj : s.job? i = some (.tearingDown d .close)) :
    ∃ next, s'.job? i = some (.tearingDown d next) ∧
      d.Follows i s.store s'.store (s.marksOf h i) next := by
  have hnow : d.Follows i s.store s.store [] .close := ⟨rfl, rfl, rfl⟩
  simpa using follows_of_run hs hr hj hnow

/-! ### A sweep on its way -/

/-- Whether a client edits content, or swaps it with other content, under a guard for writing. -/
def WritesTo (s : Service) (action : Action) (b : StorageRef) : Prop :=
  ∃ j ∈ action.writers, ∃ g, s.guard? j = some g ∧ g.mode = .exclusive ∧ g.handle.storage = b

/-- What is so while a teardown that got its locks when the store was `l` is at the keys `now` of a
sweep: it has dealt with the first of the keys that were listed, and has not touched those to
come. -/
structure InSweep (s : Service) (i : CallRef) (d : Teardown) (l : Store) (now : List Key)
    (w : Teardown.Sweep) : Prop where
  /-- The keys finished come first, then the one that is being dealt with, then the others. -/
  keys : w.passed.reverse ++ now ++ w.todo = d.listed l
  finished : ∀ k ∈ w.passed, (s.store.indexOf d.table)[k]? = none ∧
    ∀ b, (l.indexOf d.table)[k]? = some b → s.store.Gone b
  entry : ∀ k ∈ w.todo, (s.store.indexOf d.table)[k]? = (l.indexOf d.table)[k]?
  released : ∀ k ∈ w.todo, ∀ b, (l.indexOf d.table)[k]? = some b →
    (s.store.contentOf b).released = (l.contentOf b).released
  unlocked : ∀ k ∈ w.todo, ∀ b, (l.indexOf d.table)[k]? = some b →
    ∀ mode, ¬ (s.store.lockOf (.content b)).Holds i mode
  /-- The bytes of a buffer to come are only changed under guards. -/
  written : ∀ k ∈ w.todo, ∀ b, (l.indexOf d.table)[k]? = some b → ∀ supply action s',
    s.act? supply action = some s' → s'.store.contentOf b ≠ s.store.contentOf b →
      s.WritesTo action b
  drained : (s.store.rosterOf d.registry).toList = []
  /-- What is not a step of the teardown changes neither its registry's roster nor its index. -/
  unchanged : ∀ supply action s', s.act? supply action = some s' → action ≠ .step i →
    s'.store.rosterOf d.registry = s.store.rosterOf d.registry ∧
      s'.store.indexOf d.table = s.store.indexOf d.table
  /-- No other call is about to read or to change them. -/
  unvisited : ∀ j job instr, j ≠ i → s.job? j = some job → job.progress = .next instr →
    instr.visits? ≠ some (.registry d.registry) ∧ instr.visits? ≠ some (.table d.table)

/-- Content that an index leads to is only changed under a guard. -/
private theorem Sound.writesTo_of_changed {t : TableRef} {k : Key} (hs : s.Sound)
    (hin : (s.store.indexOf t)[k]? = some b) (hact : s.act? supply action = some s')
    (hne : s'.store.contentOf b ≠ s.store.contentOf b) : s.WritesTo action b := by
  have hd := does_of_act? hact
  have hhas : s.store.Has (.content b) := Store.has_of_unreleased (hs.live hin)
  by_cases hstep : ∃ j, action = .step j
  · obtain ⟨j, rfl⟩ := hstep
    obtain ⟨call, instr, next, hc, hn, hr, -⟩ := hd.calls_step
    obtain hsame | ⟨howned, -⟩ := (Moves.of_run (hs.knows hc) hn hr).content hhas
    · exact absurd hsame hne
    · exact absurd hin ((hs.owned hc howned).2 t k)
  · cases hd with
    | invoke hj => exact absurd rfl hne
    | @step j _ _ _ _ _ _ _ => exact absurd ⟨j, rfl⟩ hstep
    | drop hc hg hb => exact absurd (Store.contentOf_setLock ..) hne
    | tend hk ha => exact absurd (ha.content b) hne
    | edit hw | swap hw => exact (hw.content_or b).resolve_left hne

private theorem inSweep_of_follows (hl : Sound s₀) (hs : s.Sound)
    (hj : s.job? i = some (.tearingDown d phase)) (hw : phase.sweep? = some (now, w))
    (hf : d.Follows i s₀.store s.store ms phase) : s.InSweep i d s₀.store now w := by
  obtain ⟨hsweeps, out, hfinds, hout, hfrom⟩ := hf.finds hw
  have hnodup := d.nodup_listed s₀.store
  rw [← hsweeps.keys, List.nodup_append, List.nodup_append] at hnodup
  obtain ⟨-, -, hapart⟩ := hnodup
  -- A key to come is neither passed nor the one the sweep is at.
  have hentry (k : Key) (hk : k ∈ w.todo) :
      (s.store.indexOf d.table)[k]? = (s₀.store.indexOf d.table)[k]? := by
    rw [hfinds.index, if_neg]
    intro hmem
    obtain hp | hn := hfrom k hmem
    · exact hapart k (by simp [hp]) k hk rfl
    · exact hapart k (by simp [hn]) k hk rfl
  have hheld : (.registry d.registry, .exclusive) ∈ d.held phase ∧
      (.table d.table, .exclusive) ∈ d.held phase := by
    cases phase <;> cases hw <;> simp [Teardown.held]
  have hregistry : s.Holds i (.registry d.registry) .exclusive :=
    hs.locked.holds_of_held hj (by simp) hheld.1
  have htable : s.Holds i (.table d.table) .exclusive :=
    hs.locked.holds_of_held hj (by simp) hheld.2
  constructor
  case keys => exact hsweeps.keys
  case finished =>
    exact fun k hk ↦ ⟨by rw [hfinds.index, if_pos (hout k hk)], hsweeps.gone k hk⟩
  case entry => exact hentry
  case released =>
    intro k hk b hb
    rw [hl.live hb, hs.live ((hentry k hk).trans hb)]
  case unlocked =>
    intro k hk b hb mode hholds
    obtain ⟨call, hc, hheld⟩ := (hs.locked.holds_iff ..).mp hholds
    obtain ⟨_, hc', hjob⟩ := job?_eq_some.mp hj
    cases hc.symm.trans hc'
    have hmem : (.content b, mode) ∈ call.job.held := by
      unfold Call.held at hheld
      split at hheld
      · cases hheld
      · exact hheld
    rw [hjob] at hmem
    obtain ⟨key, hkey, hin⟩ := hf.key_of_held hw hmem
    obtain ⟨-, rfl⟩ := hl.distinct hin hb
    exact hapart key (by simp [hkey]) key hk rfl
  case written =>
    exact fun k hk b hb supply action s' ↦ hs.writesTo_of_changed ((hentry k hk).trans hb)
  case drained => simp [hfinds.roster, Roster.toList, Roster.drained]
  case unchanged =>
    intro supply action s' hact hne
    have hd := does_of_act? hact
    exact ⟨hs.locked.roster_kept hd hregistry hne, hs.locked.index_kept hd htable hne⟩
  case unvisited =>
    exact fun j job instr hne hjob hn ↦
      ⟨hs.locked.not_visited hregistry hne hjob hn, hs.locked.not_visited htable hne hjob hn⟩

/-- Whatever other calls do while a teardown has its locks, the keys it has finished are the first
of those that were listed, in ascending order, and what was under them is gone; the buffers to come
are as they were but for what guards write into them; and nobody else can look at its roster or its
index. When it ends it has taken out, and given up, exactly what the index had under the listed keys
when it got its locks, and tells how much that was. -/
theorem teardown_in_progress (hs : Reachable limits s₀)
    (hj : s₀.job? i = some (.tearingDown d .close)) (hr : s₀.run? h = some s) :
    (d.listed s₀.store).Pairwise (fun a b ↦ compare a b = .lt) ∧
    (∀ phase now w, s.job? i = some (.tearingDown d phase) → phase.sweep? = some (now, w) →
      s.InSweep i d s₀.store now w) ∧
    ∀ o, s.outcome? i = some o →
      o = .number (d.found s₀.store) ∧
      s₀.marksOf h i = d.reclaims i s₀.store (d.listed s₀.store) ∧
      ∀ k ∈ d.listed s₀.store, ∀ b, (s₀.store.indexOf d.table)[k]? = some b → s.store.Gone b := by
  obtain ⟨last, hlast, hf⟩ := follows_of_close hs hr hj
  refine ⟨Std.ExtTreeSet.ordered_toList, fun phase now w hphase hw ↦ ?_, fun o ho ↦ ?_⟩
  · cases hphase.symm.trans hlast
    exact inSweep_of_follows hs.sound (hs.run hr).sound hlast hw hf
  · exact hf.of_ended ((outcome?_of_job? hlast).symm.trans ho)

/-- Three buffers are allocated with a registry, a key that no table has is added to it, and a
teardown gets its locks. -/
def aboutToSweep : History :=
  History.allocated ⟨7⟩ 4 4 ++ History.call (.allocate 0 0 4 4) 2 14 ++
    History.call (.allocate 0 0 4 4) 3 14 ++ History.call (.roster 0 (.add ⟨⟨7⟩, ⟨9⟩⟩)) 4 3 ++
    History.call (.teardown 0 0) 5 2

/-- When the first buffer is gone, a client takes a guard on the last one and writes. -/
def writtenMeanwhile : History :=
  List.replicate 7 (.addressable, .step 5) ++
    History.call (.access ⟨⟨⟨7⟩, ⟨2⟩⟩, 2⟩ .exclusive) 6 2 ++
    [(.addressable, .edit 6 .user (.fill 5)), (.addressable, .step 5)]

/-- The teardown comes to the last buffer, which is written once more and let go, and ends. -/
def sweptToTheEnd : History :=
  writtenMeanwhile ++ List.replicate 5 (.addressable, .step 5) ++
    [(.addressable, .edit 6 .user (.fill 6)), (.addressable, .dropGuard 6)] ++
    List.replicate 11 (.addressable, .step 5)

/-- At the second buffer the first is gone and the third is as it was, but for the bytes; in the
end all three are gone. -/
theorem swept_while_written : ∃ s₀ s s', (withTables [{}]).run? aboutToSweep = some s₀ ∧
    s₀.run? writtenMeanwhile = some s ∧ s₀.run? sweptToTheEnd = some s' ∧
    s.store.Gone 0 ∧ (s.store.indexOf 0)[(⟨⟨7⟩, ⟨2⟩⟩ : Key)]? = some 2 ∧
    (s.store.contentOf 2).user = .replicate 4 5 ∧
    s'.outcome? 5 = some (.number 3) ∧ s'.store.Gone 2 := by
  have hrun : (((withTables [{}]).run? aboutToSweep).bind fun s₀ ↦
      (s₀.run? writtenMeanwhile).bind fun s ↦ (s₀.run? sweptToTheEnd).map fun s' ↦
        ([s₀.job? 5, s.job? 5],
          [0, 1, 2].map fun n ↦ (s₀.store.indexOf 0)[(⟨⟨7⟩, ⟨n⟩⟩ : Key)]?,
          (s.store.contentOf 2).user, s'.outcome? 5)) =
      some ([some (.tearingDown ⟨0, 0, ⟨7⟩⟩ .close),
          some (.tearingDown ⟨0, 0, ⟨7⟩⟩ (.lockContent ⟨⟨7⟩, ⟨1⟩⟩ 1
            ⟨true, [⟨⟨7⟩, ⟨0⟩⟩], [⟨⟨7⟩, ⟨2⟩⟩, ⟨⟨7⟩, ⟨9⟩⟩], 1⟩))],
        [some 0, some 1, some 2], .replicate 4 5, some (.number 3)) := by
    decide +kernel
  obtain ⟨s₀, hs₀, hrun⟩ := Option.bind_eq_some_iff.mp hrun
  obtain ⟨s, hs, hrun⟩ := Option.bind_eq_some_iff.mp hrun
  obtain ⟨s', hs', hrun⟩ := Option.map_eq_some_iff.mp hrun
  simp only [Prod.mk.injEq, List.map_cons, List.map_nil, List.cons.injEq, and_true] at hrun
  obtain ⟨⟨hclose, hjob⟩, ⟨hfirst, -, hthird⟩, hbytes, ho⟩ := hrun
  have hreach : Reachable [{}] s₀ := ⟨_, hs₀⟩
  have hsweep := (teardown_in_progress hreach hclose hs).2.1 _ _ _ hjob rfl
  have hgone := ((teardown_in_progress hreach hclose hs').2.2 _ ho).2.2
  exact ⟨s₀, s, s', hs₀, hs, hs', (hsweep.finished _ (by simp)).2 0 hfirst,
    (hsweep.entry _ (by simp)).trans hthird, hbytes, ho,
    hgone ⟨⟨7⟩, ⟨2⟩⟩ (by simp [← hsweep.keys]) 2 hthird⟩

end Service

end SessionBuffers
