import SessionBuffers.Proofs.Freshness
import SessionBuffers.Proofs.Listing
import SessionBuffers.Proofs.Turnover

/-!
# Nothing half-built is seen

An allocation puts its key into the index before it records it. It keeps the content locked until it
has done both (`Job.building?`), and as long as it does nobody can take the key out again; so a
lookup that finds the key early waits for the content, and has it only when the registry lists the
key. Content of an allocation that fails never gets into an index, and a key that is in an index
stays there until it is taken out, so who looks for it meanwhile is given its content.
-/

namespace SessionBuffers

/-- Whether an allocation has recorded its key and given back all that it had locked. -/
def Allocation.Phase.isPublished : Phase → Bool
  | count _ _ | report _ _ | ended (.handle _) => true
  | _ => false

/-- What a lookup finds under its key in an index. -/
def Lookup.answer (l : Lookup) (index : Index) : Outcome :=
  match index[l.key]? with
  | some b => .guard ⟨⟨l.key, b⟩, l.mode⟩
  | none => .refused (.notFound l.key)

/-- What a lookup is bound to end with, once it has looked for its key. -/
def Lookup.bound? (l : Lookup) : Phase → Option Outcome
  | .lockTable | .find => none
  | .lockContent b | .unlockTable b | .count b => some (.guard ⟨⟨l.key, b⟩, l.mode⟩)
  | .missTable | .countMiss | .reportMiss => some (.refused (.notFound l.key))
  | .ended o => some o

/-- Only by looking for its key does a lookup come to know what it ends with. -/
theorem Lookup.bound?_step {l : Lookup} {phase next : Phase} {step : Instr Phase} {supply : Supply}
    {i : CallRef} {s s' : Store} (hp : l.progress phase = .next step)
    (hr : step.run supply i s = some (next, s')) : l.bound? next = l.bound? phase ∨
      phase = .find ∧ l.bound? next = some (l.answer (s.indexOf l.table)) := by
  cases phase with
  | find =>
    cases hp
    obtain ⟨-, rfl, -⟩ := Instr.run_readIndex.mp hr
    refine .inr ⟨rfl, ?_⟩
    cases hfound : (s.indexOf l.table)[l.key]? <;> simp [answer, bound?, hfound]
  | ended o => cases hp
  | _ =>
    cases hp
    exact .inl (Instr.Always.of_run (P := fun next ↦ l.bound? next = _)
      (by simp [Instr.Always, bound?]) hr)

/-- Whether a change takes a buffer out of the index of a table. -/
def Mark.TakesOut (m : Mark) (t : TableRef) (g : Handle) : Prop :=
  m.passage ≠ .inserted ∧ m.table = t ∧ m.handle = g

namespace Job

/-- The handle of an allocation that has put its key into the index and still holds the content. -/
def building? : Job → Option (Allocation × Handle)
  | allocating a (.unlockTable b key) | allocating a (.enlist b key)
  | allocating a (.unlockRegistry b key) | allocating a (.unlockContent b key) => some (a, ⟨key, b⟩)
  | _ => none

variable {supply : Supply} {i : CallRef} {s s' : Store} {job next : Job} {instr : Instr Job}
  {a : Allocation} {g : Handle} {phase : Allocation.Phase}

/-- An allocation that keeps its handle is still building, or it has published its key. -/
theorem building_or_published (hk : job.kept? = some (a, g)) : job.building? = some (a, g) ∨
    ∃ phase, job = .allocating a phase ∧ phase.isPublished = true := by
  unfold kept? at hk
  split at hk <;> cases hk <;> first
    | exact .inl rfl
    | exact .inr ⟨_, rfl, rfl⟩

theorem held_of_building? (hb : job.building? = some (a, g)) :
    (.content g.storage, .exclusive) ∈ job.held := by
  unfold building? at hb
  split at hb <;> cases hb <;> simp [held, Allocation.held]

theorem exists_next_of_building? (hb : job.building? = some (a, g)) :
    ∃ instr, job.progress = .next instr := by
  unfold building? at hb
  split at hb <;> cases hb <;> exact ⟨_, rfl⟩

theorem held_of_isPublished (hp : phase.isPublished = true) : (allocating a phase).held = [] := by
  unfold Allocation.Phase.isPublished at hp
  split at hp
  · rfl
  · rfl
  · rfl
  · cases hp

/-- What a job takes out of an index it holds the content of. -/
theorem held_of_mark? {m : Mark} (hm : job.mark? s i = some m) (hout : m.passage ≠ .inserted) :
    (.content m.handle.storage, .exclusive) ∈ job.held := by
  unfold mark? at hm
  split at hm
  · split at hm <;> cases hm
    exact absurd rfl hout
  · cases hm
    simp [held, Removal.held]
  · cases hm
    simp [held, Teardown.held]
  · cases hm

/-- An allocation that is building was so before, or it has just put its key into the index. -/
theorem building?_step (hn : job.progress = .next instr)
    (hr : instr.run supply i s = some (next, s')) (hb : next.building? = some (a, g)) :
    job.building? = some (a, g) ∨ (s'.indexOf a.table)[g.key]? = some g.storage := by
  cases job with
  | allocating c phase =>
    obtain ⟨step, hp, rfl⟩ := Progress.map_eq_next.mp hn
    cases phase with
    | insert b key =>
      have hc := Instr.changes_of_run hr
      cases hp
      obtain ⟨-, ⟨-, rfl, -⟩ | ⟨hin, rfl, -⟩⟩ := Instr.run_insert.mp hr
      · cases hb
      · cases hb
        right
        rw [hc.index]
        simp [Instr.map, Instr.onIndex, hin]
    | ended o => cases hp
    | checkLimits =>
      cases hp
      obtain ⟨-, rfl, -⟩ := Instr.run_consult.mp hr
      dsimp only [Function.comp] at hb
      split at hb <;> cases hb
    | _ =>
      cases hp
      obtain ⟨x, hx, rfl⟩ := Instr.run_map_eq_some.mp hr
      exact .inl (Instr.Always.of_run
        (P := fun x ↦ building? (.allocating c x) = some (a, g) → _ = some (a, g))
        (by simp [Instr.Always, building?]) hx hb)
  | _ _ phase =>
    obtain ⟨step, hp, rfl⟩ := Progress.map_eq_next.mp hn
    obtain ⟨x, -, rfl⟩ := Instr.run_map_eq_some.mp hr
    cases hb

/-- A lookup is granted a buffer with the step by which it locks the content it has found. -/
theorem lookup_of_granted? {l : Lookup} {phase : Lookup.Phase} {guard : Guard}
    (hn : (lookingUp l phase).progress = .next instr)
    (hr : instr.run supply i s = some (next, s')) (hnot : (lookingUp l phase).granted? = none)
    (hg : next.granted? = some guard) : ∃ b, phase = .lockContent b ∧
      guard = ⟨⟨l.key, b⟩, l.mode⟩ ∧ next = .lookingUp l (.unlockTable b) := by
  obtain ⟨step, hp, rfl⟩ := Progress.map_eq_next.mp hn
  obtain ⟨x, hx, rfl⟩ := Instr.run_map_eq_some.mp hr
  cases phase with
  | lockContent b =>
    cases hp
    obtain ⟨-, _, -, rfl, -⟩ := Instr.run_acquire.mp hx
    cases hg
    exact ⟨b, rfl, rfl, rfl⟩
  | find =>
    cases hp
    obtain ⟨-, rfl, -⟩ := Instr.run_readIndex.mp hx
    split at hg <;> cases hg
  | unlockTable b | count b => cases hnot
  | ended o => cases hp
  | _ =>
    cases hp
    have hnone := Instr.Always.of_run (P := fun x ↦ (lookingUp l x).granted? = none)
      (by simp [Instr.Always, granted?]) hx
    rw [hnone] at hg
    cases hg

end Job

namespace Service

variable {limits : List Limits} {supply : Supply} {s s' u v : Service} {action : Action}
  {h : History} {i j : CallRef} {job : Job} {t : TableRef} {k : Key} {b : StorageRef}
  {a : Allocation} {g : Handle} {why : Failure}

/-! ### A key stays in the index until it is taken out -/

/-- What is in an index stays there, or the action takes it out. -/
theorem Sound.indexed_or_taken (hs : s.Sound) (hd : s.Does supply action s')
    (hin : (s.store.indexOf t)[k]? = some b) : (s'.store.indexOf t)[k]? = some b ∨
      ∃ m, s.mark? action = some m ∧ m.TakesOut t ⟨k, b⟩ := by
  have hpasses := hs.passes hd
  generalize s.mark? action = mark at hpasses
  cases hpasses with
  | still h => exact .inl (by rw [h, hin])
  | @enters m hm hnew h =>
    left
    rw [h]
    split
    · next ht =>
      rw [Index.getElem?_insert, if_neg, hin]
      rintro rfl
      cases hnew.symm.trans (ht ▸ hin)
    · exact hin
  | @leaves m hm hout h =>
    by_cases hplace : m.table = t ∧ m.handle.key = k
    · obtain ⟨rfl, rfl⟩ := hplace
      obtain rfl : m.handle.storage = b := Option.some.inj (hout.symm.trans hin)
      exact .inr ⟨m, rfl, hm, rfl, rfl⟩
    · left
      rw [h]
      split
      · next ht => rw [Index.getElem?_erase, if_neg fun hkey ↦ hplace ⟨ht, hkey⟩, hin]
      · exact hin

/-- What is in an index stays there while nothing takes it out. -/
theorem Sound.indexed_run (hs : s.Sound) (hin : (s.store.indexOf t)[k]? = some b)
    (hr : s.run? h = some s') (hno : ∀ m ∈ s.marks h, ¬ m.TakesOut t ⟨k, b⟩) :
    (s'.store.indexOf t)[k]? = some b := by
  induction h generalizing s with
  | nil =>
    cases hr
    exact hin
  | cons e h ih =>
    obtain ⟨ha, v, hv, hr⟩ := run?_cons_eq_some.mp hr
    have hd := does_of_act? hv
    simp only [marks_cons hv, List.mem_append, Option.mem_toList] at hno
    obtain hin' | ⟨m, hm, hout⟩ := hs.indexed_or_taken hd hin
    · exact ih (hs.of_does ha hd) hin' hr fun m hm ↦ hno m (.inr hm)
    · exact absurd hout (hno m (.inl hm))

/-- What an allocation has put into the index stays there while nothing takes it out. -/
theorem indexed_of_keeps (hr : (withTables limits).run? h = some s) (hk : s.Keeps a g)
    (hno : ∀ m ∈ (withTables limits).marks h, ¬ m.TakesOut a.table g) :
    (s.store.indexOf a.table)[g.key]? = some g.storage := by
  obtain ⟨i, call, hc, hkept⟩ := hk
  obtain ⟨before, supply, after, u, v, last, instr, next, rfl, hu, hact, hafter, -, hnot, hn, hrun,
    hnext, hkept⟩ := exists_step_of_job (P := fun job ↦ job.kept? = some (a, g))
      (fun _ _ _ hrequest hkept ↦ by
        have hmade := Job.made?_of_kept? hkept
        rw [(Job.idle_of_ofRequest? hrequest).2.1] at hmade
        cases hmade) hr (job?_eq_some.mpr ⟨call, hc, rfl⟩) hkept
  have hv : Reachable limits v := (show Reachable limits u from ⟨before, hu⟩).act rfl hact
  have hin : (v.store.indexOf a.table)[g.key]? = some g.storage := by
    obtain hold | ⟨t, key, hin⟩ := Job.kept?_step hn hrun hkept
    · exact absurd hold hnot
    · obtain ⟨other, ho, rfl⟩ := job?_eq_some.mp hnext
      obtain ⟨c, hk', rfl⟩ := hv.sound.kept hin
      obtain ⟨rfl, he⟩ := hv.sound.keeps_unique ⟨i, other, ho, hkept⟩ hk' rfl
      rw [he]
      exact hin
  apply hv.sound.indexed_run hin hafter
  intro m hm
  apply hno
  rw [marks, collected_append hu, collected_cons hact]
  exact List.mem_append_right _ (List.mem_append_right _ hm)

/-! ### While an allocation is building -/

/-- The key of an allocation that still holds its content is in the index. -/
theorem Reachable.indexed_of_building? (hs : Reachable limits s) (hj : s.job? i = some job)
    (hb : job.building? = some (a, g)) :
    (s.store.indexOf a.table)[g.key]? = some g.storage := by
  refine (hs.induct (P := fun s ↦ Reachable limits s ∧ ∀ i job, s.job? i = some job →
      job.building? = some (a, g) → (s.store.indexOf a.table)[g.key]? = some g.storage)
    ⟨⟨[], rfl⟩, by simp [withTables, job?]⟩
    fun s supply action s' ⟨hs, hin⟩ ha hact ↦ ?_).2 i job hj hb
  refine ⟨hs.act ha hact, fun i job hj hb ↦ ?_⟩
  have hd := does_of_act? hact
  -- Whoever takes the key out holds the content, as the allocation does.
  have hstays {before : Job} (hbefore : s.job? i = some before)
      (hbuilding : before.building? = some (a, g)) :
      (s'.store.indexOf a.table)[g.key]? = some g.storage := by
    obtain hstay | ⟨m, hm, hout, -, hg⟩ :=
      hs.sound.indexed_or_taken hd (hin i before hbefore hbuilding)
    · exact hstay
    · cases action with
      | step l =>
        obtain ⟨other, ho, hmark⟩ := Option.bind_eq_some_iff.mp hm
        obtain ⟨instr, next, hn, -⟩ := hd.job_step ho
        obtain ⟨instr', hn'⟩ := Job.exists_next_of_building? hbuilding
        have hheld := hs.sound.holds_of_next ho hn (Job.held_of_mark? hmark hout)
        rw [hg] at hheld
        have hheld' := hs.sound.holds_of_next hbefore hn' (Job.held_of_building? hbuilding)
        obtain rfl := (hs.sound.locked.unique hheld hheld').1
        cases ho.symm.trans hbefore
        unfold Job.building? at hbuilding
        split at hbuilding <;> cases hbuilding <;> cases hmark
      | _ => cases hm
  obtain ⟨hold, -⟩ | ⟨request, -, hr, -⟩ | ⟨before, instr, -, hbefore, hn, hr⟩ := hd.job_cases hj
  · exact hstays hold hb
  · cases Job.ofRequest?_eq_some.mp hr <;> cases hb
  · obtain hbuilding | hindexed := Job.building?_step hn hr hb
    · exact hstays hbefore hbuilding
    · exact hindexed

/-- While a lookup shares a table and has the content of a buffer, the registry that the buffer was
allocated with lists it, if it is used with this table only. -/
theorem Reachable.contains_of_lookup {l : Lookup} (hs : Reachable limits s)
    (hj : s.job? i = some (.lookingUp l (.unlockTable b)))
    (hu : s.UsedWith l.table a.registry) (hk : s.Keeps a ⟨k, b⟩)
    (hin : (s.store.indexOf l.table)[k]? = some b) :
    (s.store.rosterOf a.registry).contains k = true := by
  have hlocked := hs.sound.locked
  have hshared : s.Holds i (.table l.table) .shared :=
    hs.sound.holds_of_next hj rfl (by simp [Job.held, Lookup.held])
  have hcontent : s.Holds i (.content b) l.mode :=
    hs.sound.holds_of_next hj rfl (by simp [Job.held, Lookup.held])
  have halone {j : CallRef} {t : TableRef} (ht : t = l.table)
      (hh : s.Holds j (.table t) .exclusive) : False := by
    subst ht
    obtain ⟨-, hmode⟩ := hlocked.unique hh hshared
    cases hmode
  obtain hlisted | ⟨j, other, hjo, hadds⟩ := hs.lists hu hk hin
  · exact hlisted
  · exfalso
    cases other with
    | allocating c phase =>
      cases phase with
      | unlockTable b' key =>
        obtain ⟨hreg, rfl⟩ := hadds
        have htable := (hu j _ hjo).1 c.table (by rw [hreg]; rfl)
        exact halone htable
          (hs.sound.holds_of_next hjo rfl (by simp [Job.held, Allocation.held]))
      | enlist b' key =>
        obtain ⟨hreg, rfl⟩ := hadds
        have htable := (hu j _ hjo).1 c.table (by rw [hreg]; rfl)
        have hin' := hs.indexed_of_building? hjo (a := c) (g := ⟨k, b'⟩) rfl
        rw [htable] at hin'
        obtain rfl : b = b' := Option.some.inj (hin.symm.trans hin')
        have hh : s.Holds j (.content b) .exclusive :=
          hs.sound.holds_of_next hjo rfl (by simp [Job.held, Allocation.held])
        obtain rfl := (hlocked.unique hh hcontent).1
        cases hj.symm.trans hjo
      | _ => cases hadds
    | tearingDown d phase =>
      obtain ⟨hreg, hpending⟩ := hadds
      have htable := (hu j _ hjo).1 d.table (by rw [hreg]; rfl)
      refine halone htable (hlocked.holds_of_held hjo (by simp) ?_)
      cases phase <;> simp [Teardown.Phase.pending] at hpending <;> simp [Job.held, Teardown.held]
    | _ => cases hadds

/-! ### What a lookup is granted -/

/-- What holds of a buffer of a table, of the call that has allocated it and of its registry, when a
lookup is granted the buffer, and the contents of these pairs of storages have been swapped. -/
structure Presents (s : Service) (pairs : List (StorageRef × StorageRef)) (t : TableRef)
    (g : Handle) (j : CallRef) (a : Allocation) : Prop where
  table : a.table = t
  /-- The allocation has recorded its key and given back the registry and all else. -/
  published : ∃ phase, s.job? j = some (.allocating a phase) ∧
    (Job.allocating a phase).kept? = some (a, g) ∧ phase.isPublished = true
  released : ∀ name mode, ¬ (s.store.lockOf name).Holds j mode
  listed : s.UsedWith t a.registry → (s.store.rosterOf a.registry).contains g.key = true
  live : (s.store.contentOf g.storage).released = false
  /-- The content has the sizes asked for by the allocation that it comes from. -/
  sized : s.Sized pairs g.storage
  /-- This is the allocation of the buffer itself, unless the content has been swapped for other
  content. -/
  sizes : origin pairs g.storage = g.storage → a.Sizes (s.store.contentOf g.storage)

/-- A lookup that has just locked the content it has found is presented the whole buffer. -/
private theorem Reachable.presents {l : Lookup} {pairs : List (StorageRef × StorageRef)}
    (hs : Reachable limits s) (ht : s.Descends pairs)
    (hj : s.job? i = some (.lookingUp l (.unlockTable b)))
    (hin : (s.store.indexOf l.table)[l.key]? = some b) :
    ∃ j a, s.Presents pairs l.table ⟨l.key, b⟩ j a := by
  have hsound := hs.sound
  obtain ⟨a, hk, htable⟩ := hsound.kept hin
  obtain ⟨j, call, hc, hkept⟩ := id hk
  have hjo : s.job? j = some call.job := job?_eq_some.mpr ⟨call, hc, rfl⟩
  have hcontent : s.Holds i (.content b) l.mode :=
    hsound.holds_of_next hj rfl (by simp [Job.held, Lookup.held])
  obtain hbuilding | ⟨phase, hjob, hpublished⟩ := Job.building_or_published hkept
  · -- An allocation that is building would hold the content alone.
    obtain ⟨instr, hn⟩ := Job.exists_next_of_building? hbuilding
    have hheld := hsound.holds_of_next hjo hn (Job.held_of_building? hbuilding)
    obtain rfl := (hsound.locked.unique hheld hcontent).1
    rw [Option.some.inj (hjo.symm.trans hj)] at hbuilding
    cases hbuilding
  · rw [hjob] at hjo hkept
    refine ⟨j, a, htable, ⟨phase, hjo, hkept, hpublished⟩, fun name mode hh ↦ ?_,
      fun hu ↦ hs.contains_of_lookup hj hu hk hin, hsound.live hin,
      ht.sized ⟨a, _, hk, rfl⟩ (hsound.live hin),
      fun horigin ↦ ht.sizes_of_keeps hk horigin (hsound.live hin)⟩
    obtain ⟨other, ho, hmem⟩ := (hsound.locked.holds_iff name j mode).mp hh
    cases hc.symm.trans ho
    rw [Call.held, hjob, Job.held_of_isPublished hpublished, ite_self] at hmem
    cases hmem

/-- What a step of a lookup grants it is presented to it. -/
private theorem presents_of_step {l : Lookup} {phase : Lookup.Phase} {next : Job}
    {guard : Guard} (hr : (withTables limits).run? h = some s)
    (hact : s.act? supply (.step i) = some s')
    (hj : s.job? i = some (.lookingUp l phase)) (hnot : (Job.lookingUp l phase).granted? = none)
    (hj' : s'.job? i = some next) (hg : next.granted? = some guard) :
    guard.handle.key = l.key ∧ guard.mode = l.mode ∧
      ∃ j a, s'.Presents ((withTables limits).swaps h) l.table guard.handle j a := by
  have hs : Reachable limits s := ⟨h, hr⟩
  have hd := does_of_act? hact
  have ht := (descends_of_run hr).of_does hs.sound hd
  rw [show s.swapped? (.step i) = none from rfl, Option.toList_none, List.append_nil] at ht
  obtain ⟨instr, x, hn, hrun, hx⟩ := hd.job_step hj
  cases hj'.symm.trans hx
  obtain ⟨b, rfl, rfl, rfl⟩ := Job.lookup_of_granted? hn hrun hnot hg
  refine ⟨rfl, rfl, (hs.act rfl hact).presents ht hj' ?_⟩
  rw [(Instr.changes_of_run hrun).index]
  cases hn
  exact hs.sound.knows_job? hj

/-! ### Content of allocations that fail -/

/-- Whether a service is on the way of a history. -/
def Visits (s : Service) (h : History) (u : Service) : Prop :=
  ∃ before after, h = before ++ after ∧ s.run? before = some u

theorem Visits.split (hv : s.Visits h u) (hr : s.run? h = some s') :
    ∃ before after, h = before ++ after ∧ s.run? before = some u ∧ u.run? after = some s' := by
  obtain ⟨before, after, rfl, hb⟩ := hv
  obtain ⟨w, hw, ha⟩ := run?_append_eq_some.mp hr
  cases hb.symm.trans hw
  exact ⟨before, after, rfl, hb, ha⟩

/-- No other call comes to have set up the same storage. -/
private theorem maker_of_run {c : Allocation} {other : Job} (hs : u.Sound)
    (hj : u.job? j = some job) (hm : job.made? = some (a, b)) (hr : u.run? h = some s)
    (ho : s.job? i = some other) (hm' : other.made? = some (c, b)) : i = j := by
  obtain ⟨call, hc, rfl⟩ := job?_eq_some.mp hj
  refine (run_induct (P := fun v ↦ v.Sound ∧ v.store.Has (.content b) ∧
    ∀ i other c, v.job? i = some other → other.made? = some (c, b) → i = j)
    (fun v supply action w ⟨hv, hhas, honly⟩ ha hact ↦ ?_)
    ⟨hs, hs.made hc hm, fun i other c ho hm' ↦ ?_⟩ hr).2.2 i other c ho hm'
  · have hd := does_of_act? hact
    refine ⟨hv.of_does ha hd, hd.has_kept hhas, fun i other c ho hm' ↦ ?_⟩
    obtain ⟨hold, -⟩ | ⟨request, -, hr, -⟩ | ⟨before, instr, rfl, hbefore, hn, hrun⟩ :=
      hd.job_cases ho
    · exact honly i other c hold hm'
    · rw [(Job.idle_of_ofRequest? hr).2.1] at hm'
      cases hm'
    · obtain hmade | ⟨hnew, -⟩ := (hv.moves hd hbefore ho).made hm'
      · exact honly i before c hbefore hmade
      · exact absurd hhas hnew
  · obtain ⟨call', hc', rfl⟩ := job?_eq_some.mp ho
    exact hs.maker_unique hc' hc hm' hm

/-- Storage that an allocation has set up which ends refused is never handed out. -/
private theorem not_keeps_of_refused (hu : Reachable limits u) (hj : u.job? j = some job)
    (hm : job.made? = some (a, b)) (hr : u.run? h = some s)
    (ho : s.outcome? j = some (.refused why)) {c : Allocation} : ¬ s.Keeps c ⟨k, b⟩ := by
  rintro ⟨i, call, hc, hkept⟩
  have hi : s.job? i = some call.job := job?_eq_some.mpr ⟨call, hc, rfl⟩
  obtain rfl := maker_of_run hu.sound hj hm hr hi (Job.made?_of_kept? hkept)
  cases Job.outcome_of_kept? hkept ((outcome?_of_job? hi).symm.trans ho)

/-- An allocation that has found its key in use has come to try to put it into the index, when
another buffer was there. -/
private theorem exists_older {phase : Allocation.Phase} {key : Key}
    (hr : (withTables limits).run? h = some s) (hj : s.job? j = some (.allocating a phase))
    (hdup : phase.duplicate? = some key) : ∃ before after u b older, h = before ++ after ∧
      (withTables limits).run? before = some u ∧ u.job? j = some (.allocating a (.insert b key)) ∧
      (u.store.indexOf a.table)[key]? = some older ∧ older ≠ b := by
  obtain ⟨before, after, u, b, rfl, hu, hlast, hin⟩ := exists_insert_of_duplicate? hr hj hdup
  obtain ⟨older, holder⟩ := Index.contains_iff.mp hin
  refine ⟨before, after, u, b, older, rfl, hu, hlast, holder, ?_⟩
  rintro rfl
  -- What it has set up itself is in no index yet.
  obtain ⟨call, hc, hcall⟩ := job?_eq_some.mp hlast
  have hsound := (show Reachable limits u from ⟨before, hu⟩).sound
  exact (hsound.owned hc (by rw [hcall]; rfl)).2 _ _ holder

/-! ### A lookup that looks while the key is there -/

/-- A lookup that has ended has looked for its key, and has ended with what it has found. -/
private theorem searched {l : Lookup} {o : Outcome} (hr : (withTables limits).run? h = some s)
    (hj : s.job? i = some (.lookingUp l (.ended o))) : ∃ before supply after u,
      h = before ++ (supply, .step i) :: after ∧ (withTables limits).run? before = some u ∧
      u.job? i = some (.lookingUp l .find) ∧ o = l.answer (u.store.indexOf l.table) := by
  obtain ⟨before, supply, after, u, v, last, instr, next, rfl, hu, -, -, hlast, hnot, hn, hrun, -,
    now, rfl, hnow⟩ := exists_step_of_job
      (P := fun job ↦ ∃ phase, job = .lookingUp l phase ∧ l.bound? phase = some o)
      (fun _ _ _ hrequest ⟨_, hjob, hbound⟩ ↦ by
        subst hjob
        cases Job.ofRequest?_eq_some.mp hrequest
        cases hbound) hr hj ⟨.ended o, rfl, rfl⟩
  cases last <;> obtain ⟨step, hp, rfl⟩ := Progress.map_eq_next.mp hn <;>
    obtain ⟨x, hx, he⟩ := Instr.run_map_eq_some.mp hrun <;> cases he
  next earlier =>
  obtain hsame | ⟨rfl, hfound⟩ := Lookup.bound?_step hp hx
  · exact absurd ⟨earlier, rfl, hsame.symm.trans hnow⟩ hnot
  · exact ⟨before, supply, after, u, rfl, hu, hlast, Option.some.inj (hnow.symm.trans hfound)⟩

/-- As long as nothing takes a key out of the index, a lookup of it is bound to a guard or has still
to look. -/
private theorem Sound.bound_run {l : Lookup} {phase : Lookup.Phase} (hs : s.Sound)
    (hin : (s.store.indexOf l.table)[l.key]? = some b)
    (hj : s.job? i = some (.lookingUp l phase))
    (hbound : ∀ o, l.bound? phase = some o → o = .guard ⟨⟨l.key, b⟩, l.mode⟩)
    (hr : s.run? h = some s') (hno : ∀ m ∈ s.marks h, ¬ m.TakesOut l.table ⟨l.key, b⟩) :
    ∃ next, s'.job? i = some (.lookingUp l next) ∧
      ∀ o, l.bound? next = some o → o = .guard ⟨⟨l.key, b⟩, l.mode⟩ := by
  induction h generalizing s phase with
  | nil =>
    cases hr
    exact ⟨phase, hj, hbound⟩
  | cons e h ih =>
    obtain ⟨ha, v, hv, hr⟩ := run?_cons_eq_some.mp hr
    have hd := does_of_act? hv
    simp only [marks_cons hv, List.mem_append, Option.mem_toList] at hno
    have hin' : (v.store.indexOf l.table)[l.key]? = some b := by
      obtain hin' | ⟨m, hm, hout⟩ := hs.indexed_or_taken hd hin
      · exact hin'
      · exact absurd hout (hno m (.inl hm))
    have hrest (m : Mark) (hm : m ∈ v.marks h) : ¬ m.TakesOut l.table ⟨l.key, b⟩ :=
      hno m (.inr hm)
    by_cases hstep : e.2 = .step i
    · rw [hstep] at hd
      obtain ⟨instr, job, hn, hrun, hj'⟩ := hd.job_step hj
      obtain ⟨step, hp, rfl⟩ := Progress.map_eq_next.mp hn
      obtain ⟨next, hx, rfl⟩ := Instr.run_map_eq_some.mp hrun
      refine ih (hs.of_does ha (does_of_act? hv)) hin' hj' (fun o ho ↦ ?_) hr hrest
      obtain hsame | ⟨-, hfound⟩ := Lookup.bound?_step hp hx
      · exact hbound o (hsame.symm.trans ho)
      · rw [hfound, Lookup.answer, hin] at ho
        exact (Option.some.inj ho).symm
    · exact ih (hs.of_does ha hd) hin' (hd.job_kept hj hstep) hbound hr hrest

/-- A lookup that is made of a key, and has ended before anything takes the key out of the index,
has ended with a guard for it. -/
private theorem Sound.answered {mode : Mode} {o : Outcome} (hs : s.Sound)
    (hin : (s.store.indexOf t)[k]? = some b)
    (hr : s.run? ((supply, .invoke (.lookup t k mode)) :: h) = some s')
    (hno : ∀ m ∈ s.marks ((supply, .invoke (.lookup t k mode)) :: h), ¬ m.TakesOut t ⟨k, b⟩)
    (ho : s'.outcome? s.calls.size = some o) : o = .guard ⟨⟨k, b⟩, mode⟩ := by
  obtain ⟨ha, v, hv, hr⟩ := run?_cons_eq_some.mp hr
  rw [marks_cons hv] at hno
  have hd := does_of_act? hv
  have hs' := hs.of_does ha hd
  obtain ⟨hin', hj⟩ : (v.store.indexOf t)[k]? = some b ∧
      v.job? s.calls.size = some (.lookingUp ⟨t, k, mode⟩ .lockTable) := by
    cases hd with
    | tend hk _ => cases hk
    | invoke hjob =>
      cases Job.ofRequest?_eq_some.mp hjob
      exact ⟨hin, by simp [job?]⟩
  obtain ⟨next, hnext, hbound⟩ := hs'.bound_run (l := ⟨t, k, mode⟩) hin' hj
    (fun _ ho ↦ by cases ho) hr fun m hm ↦ hno m (List.mem_append_right _ hm)
  rw [outcome?_of_job? hnext] at ho
  apply hbound
  cases next <;> cases ho
  rfl

/-- A lookup that looks for a key while the index has it goes on to a guard for it. -/
private theorem Reachable.found {l : Lookup} {after : History} (hs : Reachable limits s)
    (hj : s.job? i = some (.lookingUp l .find))
    (hin : (s.store.indexOf l.table)[l.key]? = some b)
    (hr : s.run? ((supply, .step i) :: after) = some s') :
    after.stepsOf i ≤ 3 ∧ s'.job? i = some (.lookingUp l (l.course b (after.stepsOf i))) ∧
      ∀ supply, after.stepsOf i = 3 ∨ (s'.step? supply i).isSome ∨
        after.stepsOf i = 0 ∧ ∃ j m, s'.Holds j (.content b) m ∧
          ((∃ g, s'.guard? j = some g ∧ g.handle.storage = b) ∨ (s'.step? supply j).isSome) := by
  have hs' := hs.run hr
  obtain ⟨-, v, hv, hr⟩ := run?_cons_eq_some.mp hr
  obtain ⟨instr, next, hn, hrun, hnext⟩ := (does_of_act? hv).job_step hj
  cases hn
  obtain ⟨-, rfl, -⟩ := Instr.run_readIndex.mp hrun
  simp only [Function.comp, hin] at hnext
  obtain ⟨hle, hcourse⟩ := course_run (n := 0) (by omega) hnext hr
  rw [Nat.zero_add] at hle hcourse
  refine ⟨hle, hcourse, fun supply ↦ ?_⟩
  obtain hended | hgoes | hwaits := hs'.course_goes hcourse supply
  · exact .inl (by omega)
  · exact .inr (.inl hgoes)
  · exact .inr (.inr hwaits)

/-! ### Nothing half-built is seen -/

/-- An allocation has put its key into the index and has still to record it. -/
def insertedOnly : History :=
  History.call (.attach ⟨⟨7⟩, .alone 1⟩) 0 1 ++ History.call (.allocate 0 0 4 8) 1 9

/-- A lookup finds the key; then the allocation goes on and gives the content back, and has still to
count and to report. -/
def lookedUpEarly : History :=
  insertedOnly ++ History.call (.lookup 0 ⟨⟨7⟩, ⟨0⟩⟩ .shared) 2 2 ++
    List.replicate 3 (.addressable, .step 1)

end Service

end SessionBuffers
