import SessionBuffers.Proofs.Guards

/-!
# What becomes of buffers

A buffer that an allocation has handed out is in an index, or it has been released, or a call that
has taken it out of its index is about to release it; and nothing else is ever released. So when no
call is under way, the released buffers are those that have been handed out and are in no index.
-/

namespace SessionBuffers

namespace Job

/-- The buffer that a job has taken out of the index of a table and has still to release. -/
def erased? : Job → Option (TableRef × Handle)
  | freeing f (.forget b) | freeing f (.unlockRegistry b) | freeing f (.unlockTable b)
  | freeing f (.dispose b) => some (f.table, ⟨f.key, b⟩)
  | tearingDown d (.dispose key b _) => some (d.table, ⟨key, b⟩)
  | _ => none

theorem owned?_of_erased? {job : Job} {t : TableRef} {h : Handle}
    (he : job.erased? = some (t, h)) : job.owned? = some h.storage := by
  unfold erased? at he
  split at he <;> cases he <;> rfl

/-- What a job owns it has taken out of an index, or has set up itself. -/
theorem erased?_or_made? {job : Job} {b : StorageRef} (ho : job.owned? = some b) :
    (∃ (t : TableRef) (key : Key), job.erased? = some (t, ⟨key, b⟩)) ∨
      ∃ a, job.made? = some (a, b) := by
  unfold owned? at ho
  split at ho <;> cases ho <;> first
    | exact .inr ⟨_, rfl⟩
    | exact .inl ⟨_, _, rfl⟩

/-- A job that has ended owns nothing. -/
theorem owned?_of_outcome? {job : Job} {o : Outcome} (h : job.outcome? = some o) :
    job.owned? = none := by
  have hended := outcome?_eq_some.mp h
  cases ho : job.owned? with
  | none => rfl
  | some b =>
    unfold owned? at ho
    split at ho <;> cases ho <;> cases hended

/-- An allocation that hands something out ends with it. -/
theorem outcome_of_kept? {job : Job} {a : Allocation} {handle : Handle} {o : Outcome}
    (hk : job.kept? = some (a, handle)) (ho : job.outcome? = some o) : o = .handle handle := by
  have hended := outcome?_eq_some.mp ho
  unfold kept? at hk
  split at hk <;> cases hk <;> cases hended
  rfl

variable {supply : Supply} {who : CallRef} {s s' : Store} {job next : Job} {instr : Instr Job}
  {t : TableRef} {key : Key} {b : StorageRef}

/-- A job only takes out of an index what it has found there, and then owns it. -/
theorem owned?_of_erase (h : job.progress = .next (.erase t key next)) (hk : job.Knows s) :
    ∃ b, (s.indexOf t)[key]? = some b ∧ next.owned? = some b := by
  cases job with
  | freeing f phase =>
    obtain ⟨step, hp, he⟩ := Progress.map_eq_next.mp h
    cases phase <;> cases hp <;> cases he
    exact ⟨_, hk.1, rfl⟩
  | tearingDown d phase =>
    obtain ⟨step, hp, he⟩ := Progress.map_eq_next.mp h
    cases phase <;> cases hp <;> cases he
    exact ⟨_, hk, rfl⟩
  | attaching a phase =>
    obtain ⟨step, hp, he⟩ := Progress.map_eq_next.mp h
    cases phase with
    | start =>
      simp only [Attachment.progress] at hp
      split at hp <;> cases hp <;> cases he
    | _ => cases hp <;> cases he
  | editing c phase =>
    obtain ⟨step, hp, he⟩ := Progress.map_eq_next.mp h
    cases phase with
    | act =>
      cases hp
      unfold RosterCall.act at he
      split at he <;> cases he
    | _ => cases hp <;> cases he
  | _ _ phase =>
    obtain ⟨step, hp, he⟩ := Progress.map_eq_next.mp h
    cases phase <;> cases hp <;> cases he

/-- A job only releases what it has taken out of an index. -/
theorem erased?_of_dispose (h : job.progress = .next (.dispose b next)) :
    ∃ (t : TableRef) (key : Key), job.erased? = some (t, ⟨key, b⟩) := by
  cases job with
  | attaching a phase =>
    obtain ⟨step, hp, he⟩ := Progress.map_eq_next.mp h
    cases phase with
    | start =>
      simp only [Attachment.progress] at hp
      split at hp <;> cases hp <;> cases he
    | _ => cases hp <;> cases he
  | editing c phase =>
    obtain ⟨step, hp, he⟩ := Progress.map_eq_next.mp h
    cases phase with
    | act =>
      cases hp
      unfold RosterCall.act at he
      split at he <;> cases he
    | _ => cases hp <;> cases he
  | _ _ phase =>
    obtain ⟨step, hp, he⟩ := Progress.map_eq_next.mp h
    cases phase <;> cases hp <;> cases he <;> exact ⟨_, _, rfl⟩

/-- What a job has taken out it had taken out before, or it was in the index. -/
theorem erased?_step {h : Handle} (hn : job.progress = .next instr) (hk : job.Knows s) :
    instr.Always fun next ↦ next.erased? = some (t, h) → job.erased? = some (t, h) ∨
      (s.indexOf t)[h.key]? = some h.storage := by
  cases job with
  | freeing f phase =>
    obtain ⟨step, hp, rfl⟩ := Progress.map_eq_next.mp hn
    rw [Instr.always_map]
    cases phase with
    | find | checkOwner _ =>
      cases hp
      intro x
      dsimp only
      split <;> simp [erased?]
    | erase c =>
      cases hp
      rintro ⟨⟩
      exact .inr hk.1
    | forget c =>
      cases hp
      exact fun _ ↦ .inl
    | unlockRegistry c | unlockTable c =>
      cases hp
      exact .inl
    | _ => cases hp <;> simp [Instr.Always, erased?]
  | tearingDown d phase =>
    obtain ⟨step, hp, rfl⟩ := Progress.map_eq_next.mp hn
    rw [Instr.always_map]
    have hresume (w : Teardown.Sweep) : erased? (.tearingDown d (.resume w)) ≠ some (t, h) := by
      unfold Teardown.Phase.resume
      split <;> simp [erased?]
    cases phase with
    | find _ _ =>
      cases hp
      intro x
      dsimp only
      split <;> simp [erased?]
    | erase k c w =>
      cases hp
      rintro ⟨⟩
      exact .inr hk
    | drain _ =>
      cases hp
      exact fun _ h ↦ absurd h (hresume _)
    | reportMissing _ _ | unlockContent _ _ _ =>
      cases hp
      exact fun h ↦ absurd h (hresume _)
    | countReleased w =>
      cases hp
      dsimp only [Instr.Always]
      split <;> simp [erased?]
    | _ => cases hp <;> simp [Instr.Always, erased?]
  | _ _ phase =>
    obtain ⟨step, -, rfl⟩ := Progress.map_eq_next.mp hn
    rw [Instr.always_map]
    cases step <;> simp [Instr.Always, erased?]

/-- What a job owned it still owns, or it has been released, or it was fresh. -/
theorem owned?_step (hn : job.progress = .next instr)
    (hr : instr.run supply who s = some (next, s')) (hb : s.Has (.content b))
    (h : job.owned? = some b) :
    next.owned? = some b ∨ (s'.contentOf b).released = true ∨ ∃ a, job.made? = some (a, b) := by
  have hc := (Instr.changes_of_run hr).content b hb
  cases job with
  | allocating a phase => cases phase <;> cases h <;> exact .inr (.inr ⟨a, rfl⟩)
  | freeing f phase =>
    obtain ⟨step, hp, rfl⟩ := Progress.map_eq_next.mp hn
    cases phase with
    | dispose c =>
      cases hp
      cases h
      exact .inr (.inl (by simp [hc, Instr.map, Instr.onContent, Content.gone]))
    | forget c | unlockRegistry c | unlockTable c =>
      cases hp
      cases h
      obtain ⟨x, hx, rfl⟩ := Instr.run_map_eq_some.mp hr
      exact .inl (Instr.Always.of_run (P := fun x ↦ owned? (.freeing f x) = some b)
        (by simp [Instr.Always, owned?]) hx)
    | _ => cases h
  | tearingDown d phase =>
    obtain ⟨step, hp, rfl⟩ := Progress.map_eq_next.mp hn
    cases phase <;> cases h
    cases hp
    exact .inr (.inl (by simp [hc, Instr.map, Instr.onContent, Content.gone]))
  | _ _ phase => cases h

/-- What an allocation hands out it had handed out before, or it is in an index now. -/
theorem kept?_step {a : Allocation} {handle : Handle} (hn : job.progress = .next instr)
    (hr : instr.run supply who s = some (next, s')) (hk : next.kept? = some (a, handle)) :
    job.kept? = some (a, handle) ∨
      ∃ (t : TableRef) (key : Key), (s'.indexOf t)[key]? = some handle.storage := by
  have hc := Instr.changes_of_run hr
  cases job with
  | allocating c phase =>
    obtain ⟨step, hp, rfl⟩ := Progress.map_eq_next.mp hn
    cases phase with
    | insert b key =>
      cases hp
      obtain ⟨-, ⟨hin, rfl, -⟩ | ⟨hin, rfl, -⟩⟩ := Instr.run_insert.mp hr
      · cases hk
      · cases hk
        refine .inr ⟨a.table, key, ?_⟩
        rw [hc.index]
        simp [Instr.map, Instr.onIndex, hin]
    | ended o => cases hp
    | checkLimits =>
      cases hp
      obtain ⟨-, rfl, -⟩ := Instr.run_consult.mp hr
      dsimp only [Function.comp] at hk
      split at hk <;> cases hk
    | _ =>
      cases hp
      obtain ⟨x, hx, rfl⟩ := Instr.run_map_eq_some.mp hr
      exact .inl (Instr.Always.of_run
        (P := fun x ↦ kept? (.allocating c x) = some (a, handle) → _ = some (a, handle))
        (by simp [Instr.Always, kept?]) hx hk)
  | _ _ phase =>
    obtain ⟨step, hp, rfl⟩ := Progress.map_eq_next.mp hn
    obtain ⟨x, -, rfl⟩ := Instr.run_map_eq_some.mp hr
    cases hk

end Job

namespace Service

/-- What has become of buffers after every action. -/
structure Disposed (s : Service) : Prop where
  /-- Released content is empty, and an allocation had handed it out. -/
  released : ∀ {b : StorageRef}, s.store.Has (.content b) →
    (s.store.contentOf b).released = true →
      (s.store.contentOf b).Emptied ∧ ∃ a h, s.Keeps a h ∧ h.storage = b
  /-- What a call has taken out of an index has been handed out by an allocation of that table. -/
  erased : ∀ {i : CallRef} {call : Call} {t : TableRef} {h : Handle}, s.calls[i]? = some call →
    call.job.erased? = some (t, h) → ∃ a, s.Keeps a h ∧ a.table = t
  /-- What has been handed out is in an index, or it is about to be released, or it has been. -/
  placed : ∀ {a : Allocation} {h : Handle}, s.Keeps a h →
    (∃ (t : TableRef) (key : Key), (s.store.indexOf t)[key]? = some h.storage) ∨
    (∃ (i : CallRef) (call : Call), s.calls[i]? = some call ∧
      call.job.owned? = some h.storage) ∨
    (s.store.contentOf h.storage).released = true

variable {limits : List Limits} {supply : Supply} {s s' : Service} {action : Action}
  {i : CallRef} {b : StorageRef}

theorem disposed_withTables (limits : List Limits) : (withTables limits).Disposed where
  released hb := absurd (Store.has_content.mp hb) (Nat.not_lt_zero _)
  erased hc := by simp [withTables] at hc
  placed hk := by
    obtain ⟨i, call, hc, -⟩ := hk
    simp [withTables] at hc

/-- Storage that is set up is live. -/
private theorem live_of_fresh {next : Job} {instr : Instr Job} {store : Store}
    (hr : instr.run supply i s.store = some (next, store)) (hnot : ¬ s.store.Has (.content b))
    (hb : store.Has (.content b)) : (store.contentOf b).released = false := by
  rw [Store.has_content] at hnot hb
  cases instr with
  | provide user kernel given refused =>
    obtain ⟨-, -, rfl⟩ | ⟨-, -, rfl⟩ := Instr.run_provide.mp hr
    · obtain rfl : b = s.store.storages.size :=
        Nat.le_antisymm (Nat.le_of_lt_succ (by simpa using hb)) (Nat.le_of_not_lt hnot)
      simp [Store.contentOf, Content.zeroed]
    · exact absurd hb hnot
  | enroll session capacity given refused =>
    obtain ⟨-, -, rfl⟩ | ⟨-, -, rfl⟩ := Instr.run_enroll.mp hr <;> exact absurd hb hnot
  | _ =>
    rw [(Instr.sameFrame_of_run hr rfl).storages] at hb
    exact absurd hb hnot

/-- What is in an index stays there, or the job that takes it out owns it. -/
private theorem indexed_or_owned {job next : Job} {instr : Instr Job} {store : Store}
    (hn : job.progress = .next instr) (hk : job.Knows s.store)
    (hr : instr.run supply i s.store = some (next, store)) {t : TableRef} {key : Key}
    (hb : (s.store.indexOf t)[key]? = some b) :
    (store.indexOf t)[key]? = some b ∨ next.owned? = some b := by
  rw [(Instr.changes_of_run hr).index]
  cases instr with
  | insert u k c fresh present =>
    refine .inl ?_
    simp only [Instr.onIndex]
    split
    · split
      · exact hb
      · next hnot =>
        rw [Index.getElem?_insert, if_neg, hb]
        rintro rfl
        exact hnot (Index.contains_iff.mpr ⟨b, hb⟩)
    · exact hb
  | erase u k x =>
    simp only [Instr.onIndex]
    split
    · next he =>
      subst he
      by_cases hkey : k = key
      · subst hkey
        obtain ⟨c, hc, ho⟩ := Job.owned?_of_erase hn hk
        cases hb.symm.trans hc
        rw [(Instr.run_erase.mp hr).2.1]
        exact .inr ho
      · exact .inl (by rw [Index.getElem?_erase, if_neg hkey, hb])
    · exact .inl hb
  | _ => exact .inl hb

/-- A step of one call. -/
private theorem Disposed.step (h : s.Disposed) (hs : s.Sound)
    (hd : s.Does supply (.step i) s') : s'.Disposed := by
  obtain ⟨call, instr, next, hc, hn, hr, hcalls⟩ := hd.calls_step
  have hk := hs.knows hc
  have hm : Moves s.store s'.store call.job next := .of_run hk hn hr
  have hchanges := Instr.changes_of_run hr
  have hkeeps {a : Allocation} {handle : Handle} (hk : s.Keeps a handle) : s'.Keeps a handle :=
    hk.of_does hs hd
  have hnext : s'.calls[i]? = some { call with job := next } := by rw [hcalls, if_pos rfl]
  have hcases {j : CallRef} {other : Call} (hj : s'.calls[j]? = some other) :
      j = i ∧ other = { call with job := next } ∨ j ≠ i ∧ s.calls[j]? = some other := by
    rw [hcalls] at hj
    split at hj
    · next he => exact .inl ⟨he.symm, (Option.some.inj hj).symm⟩
    · next hne => exact .inr ⟨Ne.symm hne, hj⟩
  have hempty {b : StorageRef} (hb : s.store.Has (.content b)) :
      s'.store.contentOf b = s.store.contentOf b ∨
        (s'.store.contentOf b).Emptied ∧ ∃ (t : TableRef) (key : Key),
          call.job.erased? = some (t, ⟨key, b⟩) := by
    rw [hchanges.content b hb]
    cases instr with
    | dispose c x =>
      simp only [Instr.onContent]
      split
      · next he =>
        exact .inr ⟨Content.emptied_gone, he ▸ Job.erased?_of_dispose hn⟩
      · exact .inl rfl
    | _ => exact .inl rfl
  constructor
  case released =>
    intro b hb' hreleased
    by_cases hb : s.store.Has (.content b)
    · obtain hsame | ⟨hempty, t, key, herased⟩ := hempty hb
      · rw [hsame] at hreleased ⊢
        obtain ⟨hempty, a, handle, hkept, he⟩ := h.released hb hreleased
        exact ⟨hempty, a, handle, hkeeps hkept, he⟩
      · obtain ⟨a, hkept, -⟩ := h.erased hc herased
        exact ⟨hempty, a, ⟨key, b⟩, hkeeps hkept, rfl⟩
    · rw [live_of_fresh hr hb hb'] at hreleased
      cases hreleased
  case erased =>
    intro j other t handle hj herased
    obtain ⟨rfl, rfl⟩ | ⟨-, hj⟩ := hcases hj
    · obtain herased | hb := (Job.erased?_step hn hk).of_run hr herased
      · obtain ⟨a, hkept, ht⟩ := h.erased hc herased
        exact ⟨a, hkeeps hkept, ht⟩
      · obtain ⟨a, hkept, ht⟩ := hs.kept hb
        exact ⟨a, hkeeps hkept, ht⟩
    · obtain ⟨a, hkept, ht⟩ := h.erased hj herased
      exact ⟨a, hkeeps hkept, ht⟩
  case placed =>
    intro a handle hkept'
    have hkept : s.Keeps a handle ∨ ∃ (t : TableRef) (key : Key),
        (s'.store.indexOf t)[key]? = some handle.storage := by
      obtain ⟨j, other, hj, hkept⟩ := hkept'
      obtain ⟨rfl, rfl⟩ | ⟨-, hj⟩ := hcases hj
      · obtain hkept | hin := Job.kept?_step hn hr hkept
        · exact .inl ⟨j, call, hc, hkept⟩
        · exact .inr hin
      · exact .inl ⟨j, other, hj, hkept⟩
    obtain hkept | hin := hkept
    · obtain ⟨k, maker, hmaker, hmade⟩ := id hkept
      have hmade' := Job.made?_of_kept? hmade
      have hhas := hs.made hmaker hmade'
      obtain ⟨t, key, hb⟩ | ⟨j, other, hj, ho⟩ | hreleased := h.placed hkept
      · obtain hb | ho := indexed_or_owned hn hk hr hb
        · exact .inl ⟨t, key, hb⟩
        · exact .inr (.inl ⟨i, _, hnext, ho⟩)
      · by_cases hji : j = i
        · subst hji
          cases hc.symm.trans hj
          obtain ho' | hreleased | ⟨c, hfresh⟩ := Job.owned?_step hn hr hhas ho
          · exact .inr (.inl ⟨j, _, hnext, ho'⟩)
          · exact .inr (.inr hreleased)
          · -- What has been handed out is nobody's own any more.
            obtain rfl := hs.maker_unique hmaker hc hmade' hfresh
            cases hc.symm.trans hmaker
            rw [Job.kept?_of_owned? ho] at hmade
            cases hmade
        · refine .inr (.inl ⟨j, other, ?_, ho⟩)
          rw [hcalls, if_neg (Ne.symm hji), hj]
      · refine .inr (.inr ?_)
        obtain hsame | ⟨hempty, -⟩ := hempty hhas
        · rw [hsame, hreleased]
        · exact hempty.released
    · exact .inl hin

/-- An action that is no step only changes content that is live. -/
private theorem content_cases (hs : s.Sound) (hd : s.Does supply action s')
    (hne : ∀ i, action ≠ .step i) (b : StorageRef) :
    (s'.store.Has (.content b) ↔ s.store.Has (.content b)) ∧
      (s'.store.contentOf b = s.store.contentOf b ∨
        (s.store.contentOf b).released = false ∧ (s'.store.contentOf b).released = false) := by
  cases hd with
  | invoke hj => exact ⟨.rfl, .inl rfl⟩
  | @step i _ _ _ _ _ _ _ => exact absurd rfl (hne i)
  | drop hc hg hb => exact ⟨by simp, .inl (by simp)⟩
  | edit hw | swap hw =>
    refine ⟨hw.has _, ?_⟩
    rcases hw.content_or b with hsame | ⟨i, -, g, hg, -, rfl⟩
    · exact .inl hsame
    · have hlive := hs.live_of_guard? hg
      exact .inr ⟨hlive, (hs.released_of_writes hw _).trans hlive⟩
  | tend hk ha => exact ⟨ha.has _, .inl (ha.content b)⟩

/-- Content that has been released stays as it is. -/
theorem Sound.released_kept (hs : s.Sound) (hd : s.Does supply action s')
    (hb : s.store.Has (.content b)) (hreleased : (s.store.contentOf b).released = true) :
    s'.store.Has (.content b) ∧ s'.store.contentOf b = s.store.contentOf b := by
  by_cases hstep : ∃ i, action = .step i
  · obtain ⟨i, rfl⟩ := hstep
    obtain ⟨call, instr, next, hc, hn, hr, -⟩ := hd.calls_step
    refine ⟨(Instr.changes_of_run hr).has _ hb, ?_⟩
    obtain hsame | ⟨ho, -⟩ := (Moves.of_run (hs.knows hc) hn hr).content hb
    · exact hsame
    · rw [(hs.owned hc ho).1] at hreleased
      cases hreleased
  · obtain ⟨hhas, hsame | ⟨hlive, -⟩⟩ := content_cases hs hd (fun i he ↦ hstep ⟨i, he⟩) b
    · exact ⟨hhas.mpr hb, hsame⟩
    · rw [hlive] at hreleased
      cases hreleased

/-- Every action keeps track of what becomes of buffers. -/
private theorem Disposed.of_does (h : s.Disposed) (hs : s.Sound) (ha : s.allows action = true)
    (hd : s.Does supply action s') : s'.Disposed := by
  by_cases hstep : ∃ i, action = .step i
  · obtain ⟨i, rfl⟩ := hstep
    exact h.step hs hd
  have hne (i : CallRef) : action ≠ .step i := fun he ↦ hstep ⟨i, he⟩
  have hcontent := content_cases hs hd hne
  have hindex := (hd.views_kept hne).1
  have hold {j : CallRef} {other : Call} (hj : s'.calls[j]? = some other) :
      (∃ call, s.calls[j]? = some call ∧ call.job = other.job) ∨
        other.job.owned? = none ∧ other.job.made? = none := by
    obtain ⟨hjob, -⟩ | ⟨request, rfl, hr, -⟩ | ⟨_, _, rfl, -⟩ :=
      hd.job_cases (job?_eq_some.mpr ⟨other, hj, rfl⟩)
    · exact .inl (job?_eq_some.mp hjob)
    · obtain ⟨ho, hm, -⟩ := Job.idle_of_ofRequest? hr
      exact .inr ⟨ho, hm⟩
    · exact absurd rfl (hne j)
  constructor
  case released =>
    intro b hb hreleased
    obtain ⟨hhas, hsame | ⟨-, hlive⟩⟩ := hcontent b
    · rw [hsame] at hreleased ⊢
      obtain ⟨hgone, a, handle, hkept, he⟩ := h.released (hhas.mp hb) hreleased
      exact ⟨hgone, a, handle, hkept.of_does hs hd, he⟩
    · rw [hlive] at hreleased
      cases hreleased
  case erased =>
    intro j other t handle hj herased
    obtain ⟨call, hc, he⟩ | ⟨ho, -⟩ := hold hj
    · obtain ⟨a, hkept, ht⟩ := h.erased hc (he ▸ herased)
      exact ⟨a, hkept.of_does hs hd, ht⟩
    · rw [Job.owned?_of_erased? herased] at ho
      cases ho
  case placed =>
    rintro a handle ⟨j, other, hj, hkept⟩
    obtain ⟨call, hc, he⟩ | ⟨-, hm⟩ := hold hj
    · obtain ⟨t, key, hb⟩ | ⟨k, owner, hk, ho⟩ | hreleased := h.placed ⟨j, call, hc, he ▸ hkept⟩
      · exact .inl ⟨t, key, by rw [hindex, hb]⟩
      · obtain ⟨owner', hk', hjob⟩ := job?_eq_some.mp
          (hd.job_kept (job?_eq_some.mpr ⟨owner, hk, rfl⟩) (hne k))
        exact .inr (.inl ⟨k, owner', hk', hjob ▸ ho⟩)
      · refine .inr (.inr ?_)
        obtain ⟨-, hsame | ⟨hlive, -⟩⟩ := hcontent handle.storage
        · rw [hsame, hreleased]
        · rw [hlive] at hreleased
          cases hreleased
    · rw [Job.made?_of_kept? hkept] at hm
      cases hm

theorem Reachable.disposed (hr : Reachable limits s) : s.Disposed := by
  refine (hr.induct (P := fun s ↦ s.Sound ∧ s.Disposed)
    ⟨sound_withTables limits, disposed_withTables limits⟩ fun _ _ _ _ h ha hact ↦ ?_).2
  have hd := does_of_act? hact
  exact ⟨h.1.of_does ha hd, h.2.of_does h.1 ha hd⟩

/-- When no call is under way the released buffers are those that have been handed out and are in
no index, and nothing is left of them. -/
theorem Reachable.released_iff (hr : Reachable limits s) (hidle : s.Idle)
    (hb : s.store.Has (.content b)) :
    (s.store.contentOf b).released = true ↔
      (∃ i h, s.outcome? i = some (.handle h) ∧ h.storage = b) ∧
        ∀ (t : TableRef) (key : Key), (s.store.indexOf t)[key]? ≠ some b := by
  have hs := hr.sound
  constructor
  · intro hreleased
    obtain ⟨-, a, handle, ⟨i, call, hc, hkept⟩, rfl⟩ := hr.disposed.released hb hreleased
    refine ⟨⟨i, handle, ?_, rfl⟩, fun t key hin ↦ ?_⟩
    · obtain ⟨o, ho, hout⟩ := hidle.outcome? (job?_eq_some.mpr ⟨call, hc, rfl⟩)
      rw [hout, Job.outcome_of_kept? hkept ho]
    · rw [hs.live hin] at hreleased
      cases hreleased
  · rintro ⟨⟨i, handle, hout, rfl⟩, hnot⟩
    obtain ⟨call, hc, ho⟩ := Option.bind_eq_some_iff.mp hout
    obtain ⟨a, hjob, -⟩ := (hs.proper hc).handle ho
    obtain ⟨t, key, hin⟩ | ⟨j, owner, hj, howned⟩ | hreleased :=
      hr.disposed.placed ⟨i, call, hc, by rw [hjob]; rfl⟩
    · exact absurd hin (hnot t key)
    · obtain ⟨o, ho, -⟩ := hidle.outcome? (job?_eq_some.mpr ⟨owner, hj, rfl⟩)
      rw [Job.owned?_of_outcome? ho] at howned
      cases howned
    · exact hreleased

end Service

end SessionBuffers
