import SessionBuffers.Proofs.Lifecycle

/-!
# Sound services

What holds of storage after every action: what an index leads to is live, is in no other place and
was put there by an allocation of that table; what a call has taken out of an index is still live
and is only its own; and content that somebody has been granted is live.
-/

namespace SessionBuffers

namespace Service

/-- Whether an allocation has put its handle into the index, now or at some time before. -/
def Keeps (s : Service) (a : Allocation) (h : Handle) : Prop :=
  ∃ (i : CallRef) (call : Call), s.calls[i]? = some call ∧ call.job.kept? = some (a, h)

/-- What holds of the storage of a service after every action. -/
structure Sound (s : Service) : Prop where
  locked : s.Locked
  proper : ∀ {i : CallRef} {call : Call}, s.calls[i]? = some call → call.job.Proper
  knows : ∀ {i : CallRef} {call : Call}, s.calls[i]? = some call → call.job.Knows s.store
  /-- What an index leads to is live. -/
  live : ∀ {t : TableRef} {key : Key} {b : StorageRef}, (s.store.indexOf t)[key]? = some b →
    (s.store.contentOf b).released = false
  /-- No storage is in two places. -/
  distinct : ∀ {t u : TableRef} {key k : Key} {b : StorageRef},
    (s.store.indexOf t)[key]? = some b → (s.store.indexOf u)[k]? = some b → t = u ∧ key = k
  /-- What an index leads to was put there by an allocation of that table. -/
  kept : ∀ {t : TableRef} {key : Key} {b : StorageRef}, (s.store.indexOf t)[key]? = some b →
    ∃ a, s.Keeps a ⟨key, b⟩ ∧ a.table = t
  /-- What a call owns is live and in no index. -/
  owned : ∀ {i : CallRef} {call : Call} {b : StorageRef}, s.calls[i]? = some call →
    call.job.owned? = some b → (s.store.contentOf b).released = false ∧
      ∀ (t : TableRef) (key : Key), (s.store.indexOf t)[key]? ≠ some b
  owner_unique : ∀ {i j : CallRef} {call other : Call} {b : StorageRef},
    s.calls[i]? = some call → s.calls[j]? = some other → call.job.owned? = some b →
      other.job.owned? = some b → i = j
  /-- What an allocation has set up exists. -/
  made : ∀ {i : CallRef} {call : Call} {a : Allocation} {b : StorageRef},
    s.calls[i]? = some call → call.job.made? = some (a, b) → s.store.Has (.content b)
  maker_unique : ∀ {i j : CallRef} {call other : Call} {a c : Allocation} {b : StorageRef},
    s.calls[i]? = some call → s.calls[j]? = some other → call.job.made? = some (a, b) →
      other.job.made? = some (c, b) → i = j
  /-- Handles in use have been put into an index. -/
  used : ∀ {i : CallRef} {call : Call} {h : Handle}, s.calls[i]? = some call →
    call.job.used? = some h → ∃ a, s.Keeps a h
  /-- Content that has been granted stays live until the guard is dropped. -/
  granted : ∀ {i : CallRef} {call : Call} {g : Guard}, s.calls[i]? = some call →
    call.dropped = false → call.job.granted? = some g →
      (s.store.contentOf g.handle.storage).released = false

theorem indexOf_withTables (limits : List Limits) (t : TableRef) :
    (withTables limits).store.indexOf t = ∅ := by
  cases h : limits[t]? <;> simp [withTables, Store.withTables, Store.indexOf, h]

theorem sound_withTables (limits : List Limits) : (withTables limits).Sound := by
  have hi := indexOf_withTables limits
  have hc (i : CallRef) : (withTables limits).calls[i]? = none := by simp [withTables]
  constructor
  case locked => exact locked_withTables limits
  all_goals
    intros
    simp_all

/-! ### One step -/

/-- What a call knows stays true while it makes no step. -/
private theorem Sound.knows_kept {supply : Supply} {s s' : Service} {action : Action}
    (hs : s.Sound) (hd : s.Does supply action s') {j : CallRef} {other : Call}
    (hj : s.calls[j]? = some other) (hne : action ≠ .step j) : other.job.Knows s'.store := by
  cases hdrop : other.dropped with
  | false =>
    have hheld {name : LockName} {mode : Mode} (h : (name, mode) ∈ other.job.held) :
        s.Holds j name mode := ⟨other, hj, by simpa [Call.held, hdrop] using h⟩
    exact (hs.knows hj).congr (fun _ _ h ↦ hs.locked.index_kept hd (hheld h) hne)
      fun _ _ h ↦ hs.locked.roster_kept hd (hheld h) hne
  | true =>
    obtain ⟨o, ho⟩ := Option.isSome_iff_exists.mp (hs.locked.ended j other hj hdrop)
    exact Job.knows_of_outcome? ho _

section Step

variable {supply : Supply} {s : Service} {i : CallRef} {call : Call} {instr : Instr Job} {job : Job}
  {store : Store}

/-- The calls after a step: the one that made it is at its next position, the others stay. -/
private theorem calls_step (hc : s.calls[i]? = some call) {j : CallRef} {other : Call}
    (hj : (s.calls.modify i fun call ↦ { call with job })[j]? = some other) :
    (j = i ∧ other = { call with job }) ∨ (j ≠ i ∧ s.calls[j]? = some other) := by
  rw [getElem?_calls_modify hc] at hj
  split at hj
  · next he => exact .inl ⟨he.symm, (Option.some.inj hj).symm⟩
  · next hne => exact .inr ⟨Ne.symm hne, hj⟩

private theorem Keeps.step (hc : s.calls[i]? = some call)
    (hm : Moves s.store store call.job job) {a : Allocation} {h : Handle} (hk : s.Keeps a h) :
    Keeps ⟨store, s.calls.modify i fun call ↦ { call with job }⟩ a h := by
  obtain ⟨j, other, hj, hk⟩ := hk
  by_cases he : i = j
  · subst he
    cases hc.symm.trans hj
    exact ⟨i, { call with job }, by simp [getElem?_calls_modify hc], hm.kept hk⟩
  · exact ⟨j, other, by simpa [getElem?_calls_modify hc, he] using hj, hk⟩

/-- What is given up is owned by the call that makes the step, so it is in no index. -/
private theorem Sound.content_of_indexed (hs : s.Sound) (hc : s.calls[i]? = some call)
    (hm : Moves s.store store call.job job) {t : TableRef} {key : Key} {b : StorageRef}
    (hb : (s.store.indexOf t)[key]? = some b) : store.contentOf b = s.store.contentOf b := by
  obtain h | ⟨ho, -⟩ := hm.content (Store.has_of_unreleased (hs.live hb))
  · exact h
  · exact absurd hb ((hs.owned hc ho).2 t key)

private theorem Sound.content_of_owned (hs : s.Sound) (hc : s.calls[i]? = some call)
    (hm : Moves s.store store call.job job) {j : CallRef} {other : Call} {b : StorageRef}
    (hne : j ≠ i) (hj : s.calls[j]? = some other) (ho : other.job.owned? = some b) :
    store.contentOf b = s.store.contentOf b := by
  obtain h | ⟨hi, -⟩ := hm.content (Store.has_of_unreleased (hs.owned hj ho).1)
  · exact h
  · exact absurd (hs.owner_unique hj hc ho hi) hne

/-- What the call owns after its step is live and in no index. -/
private theorem Sound.owns_step (hs : s.Sound) (hc : s.calls[i]? = some call)
    (hm : Moves s.store store call.job job) {b : StorageRef} (ho : job.owned? = some b) :
    (store.contentOf b).released = false ∧
      ∀ (t : TableRef) (key : Key), (store.indexOf t)[key]? ≠ some b := by
  obtain h | ⟨hnot, hlive⟩ | ⟨t, key, hb, hb'⟩ := hm.owned ho
  · refine ⟨?_, fun t key hb ↦ ?_⟩
    · obtain hsame | ⟨-, hnone, -⟩ := hm.content (Store.has_of_unreleased (hs.owned hc h).1)
      · exact hsame ▸ (hs.owned hc h).1
      · exact absurd ho (by simp [hnone])
    · obtain hb | ⟨-, hnone, -⟩ := hm.index hb
      · exact (hs.owned hc h).2 t key hb
      · exact absurd ho (by simp [hnone])
  · refine ⟨hlive, fun t key hb ↦ ?_⟩
    obtain hb | ⟨h, -⟩ := hm.index hb
    · exact hnot (Store.has_of_unreleased (hs.live hb))
    · exact hnot (Store.has_of_unreleased (hs.owned hc h).1)
  · refine ⟨hs.content_of_indexed hc hm hb ▸ hs.live hb, fun u k hu ↦ ?_⟩
    obtain hu | ⟨h, -⟩ := hm.index hu
    · obtain ⟨rfl, rfl⟩ := hs.distinct hb hu
      exact absurd hu (by simp_all)
    · exact (hs.owned hc h).2 t key hb

/-- What the call has been granted after its step is live. -/
private theorem Sound.grant_step (hs : s.Sound) (hc : s.calls[i]? = some call)
    (hm : Moves s.store store call.job job) (hdrop : call.dropped = false) {g : Guard}
    (hg : job.granted? = some g) : (store.contentOf g.handle.storage).released = false := by
  have hl : (s.store.contentOf g.handle.storage).released = false := by
    obtain h | ⟨t, hb⟩ | h := hm.granted hg
    · exact hs.granted hc hdrop h
    · exact hs.live hb
    · exact h
  obtain h | ⟨-, -, -, hnone, -⟩ := hm.content (Store.has_of_unreleased hl)
  · exact h ▸ hl
  · exact absurd hg (by simp [hnone])

/-- What only one call has before a step only one call has after it, when nobody else has what the
call has just come to have. -/
private theorem unique_step {P : Job → StorageRef → Prop} (hc : s.calls[i]? = some call)
    (hold : ∀ {j k : CallRef} {other third : Call} {b : StorageRef}, s.calls[j]? = some other →
      s.calls[k]? = some third → P other.job b → P third.job b → j = k)
    (hnew : ∀ {j : CallRef} {other : Call} {b : StorageRef}, s.calls[j]? = some other →
      P job b → P other.job b → i = j)
    {j k : CallRef} {other third : Call} {b : StorageRef}
    (hj : (s.calls.modify i fun call ↦ { call with job })[j]? = some other)
    (hk : (s.calls.modify i fun call ↦ { call with job })[k]? = some third)
    (ho : P other.job b) (ht : P third.job b) : j = k := by
  obtain ⟨rfl, rfl⟩ | ⟨-, hother⟩ := calls_step hc hj <;>
    obtain ⟨rfl, rfl⟩ | ⟨-, hthird⟩ := calls_step hc hk
  · rfl
  · exact hnew hthird ho ht
  · exact (hnew hother ht ho).symm
  · exact hold hother hthird ho ht

/-- A step of one call keeps a service sound. -/
private theorem Sound.step (hs : s.Sound) (hc : s.calls[i]? = some call)
    (hn : call.job.progress = .next instr)
    (hr : instr.run supply i s.store = some (job, store)) :
    Sound ⟨store, s.calls.modify i fun call ↦ { call with job }⟩ := by
  have hm : Moves s.store store call.job job := .of_run (hs.knows hc) hn hr
  have hhas := (Instr.changes_of_run hr).has
  have hdoes : s.Does supply (.step i) ⟨store, s.calls.modify i fun call ↦ { call with job }⟩ :=
    .step hc hn hr
  constructor
  case locked => exact hs.locked.of_does hdoes
  case proper =>
    intro j other hj
    obtain ⟨rfl, rfl⟩ | ⟨-, hj⟩ := calls_step hc hj
    · exact Instr.Always.of_run (P := Job.Proper) ((hs.proper hc).step hn) hr
    · exact hs.proper hj
  case knows =>
    intro j other hj
    obtain ⟨rfl, rfl⟩ | ⟨hne, hj⟩ := calls_step hc hj
    · exact (hs.knows hc).step hn hr
    · exact hs.knows_kept hdoes hj (by simpa using Ne.symm hne)
  case live =>
    intro t key b hb
    obtain hb | ⟨ho, -, a, hk, -⟩ := hm.index hb
    · exact hs.content_of_indexed hc hm hb ▸ hs.live hb
    · obtain h | ⟨-, -, hk', -⟩ := hm.content (Store.has_of_unreleased (hs.owned hc ho).1)
      · exact h ▸ (hs.owned hc ho).1
      · rw [hk', Job.kept?_of_owned? ho] at hk
        cases hk
  case distinct =>
    intro t u key k b ht hu
    obtain ht | ⟨ho, -, a, hk, rfl⟩ := hm.index ht <;>
      obtain hu | ⟨ho', -, a', hk', rfl⟩ := hm.index hu
    · exact hs.distinct ht hu
    · exact absurd ht ((hs.owned hc ho').2 t key)
    · exact absurd hu ((hs.owned hc ho).2 u k)
    · rw [hk] at hk'
      cases hk'
      exact ⟨rfl, rfl⟩
  case kept =>
    intro t key b hb
    obtain hb | ⟨-, -, a, hk, ht⟩ := hm.index hb
    · obtain ⟨a, hk, ht⟩ := hs.kept hb
      exact ⟨a, hk.step hc hm, ht⟩
    · exact ⟨a, ⟨i, { call with job }, by simp [getElem?_calls_modify hc], hk⟩, ht⟩
  case owned =>
    intro j other b hj ho
    obtain ⟨rfl, rfl⟩ | ⟨hne, hj⟩ := calls_step hc hj
    · exact hs.owns_step hc hm ho
    · refine ⟨hs.content_of_owned hc hm hne hj ho ▸ (hs.owned hj ho).1, fun t key hb ↦ ?_⟩
      obtain hb | ⟨h, -⟩ := hm.index hb
      · exact (hs.owned hj ho).2 t key hb
      · exact hne (hs.owner_unique hj hc ho h)
  case owner_unique =>
    intro j k other third b hj hk ho ht
    refine unique_step (P := fun job b ↦ job.owned? = some b) hc hs.owner_unique
      (fun {j other b} hj hi ho ↦ ?_) hj hk ho ht
    obtain h | ⟨hnot, -⟩ | ⟨t, key, hb, -⟩ := hm.owned hi
    · exact hs.owner_unique hc hj h ho
    · exact absurd (Store.has_of_unreleased (hs.owned hj ho).1) hnot
    · exact absurd hb ((hs.owned hj ho).2 t key)
  case made =>
    intro j other a b hj hb
    obtain ⟨rfl, rfl⟩ | ⟨-, hj⟩ := calls_step hc hj
    · obtain h | ⟨-, hb, -⟩ := hm.made hb
      · exact hhas _ (hs.made hc h)
      · exact hb
    · exact hhas _ (hs.made hj hb)
  case maker_unique =>
    intro j k other third a c b hj hk ho ht
    refine unique_step (P := fun job b ↦ ∃ a, job.made? = some (a, b)) hc
      (fun hj hk ⟨_, ho⟩ ⟨_, ht⟩ ↦ hs.maker_unique hj hk ho ht)
      (fun {j other b} hj ⟨_, hi⟩ ⟨_, ho⟩ ↦ ?_) hj hk ⟨a, ho⟩ ⟨c, ht⟩
    obtain h | ⟨hnot, -⟩ := hm.made hi
    · exact hs.maker_unique hc hj h ho
    · exact absurd (hs.made hj ho) hnot
  case used =>
    intro j other h hj hu
    obtain ⟨rfl, rfl⟩ | ⟨-, hj⟩ := calls_step hc hj
    · obtain hu | ⟨t, hb⟩ := hm.used hu
      · obtain ⟨a, hk⟩ := hs.used hc hu
        exact ⟨a, hk.step hc hm⟩
      · obtain ⟨a, hk, -⟩ := hs.kept hb
        exact ⟨a, hk.step hc hm⟩
    · obtain ⟨a, hk⟩ := hs.used hj hu
      exact ⟨a, hk.step hc hm⟩
  case granted =>
    intro j other g hj hd hg
    obtain ⟨rfl, rfl⟩ | ⟨hne, hj⟩ := calls_step hc hj
    · exact hs.grant_step hc hm (hs.locked.not_dropped hc hn) hg
    · have hh : s.Holds j (.content g.handle.storage) g.mode :=
        ⟨other, hj, by simpa [Call.held, hd] using Job.held_of_granted? hg⟩
      have h := hs.locked.content_kept hs.proper hdoes hh (by simpa using Ne.symm hne) (by simp)
      exact h ▸ hs.granted hj hd hg

end Step

/-! ### Any other action -/

/-- How an action that is no step leaves a service: indexes and rosters stay, content stays live
or released, and every call keeps its job or has just been made. -/
private structure Rests (s s' : Service) : Prop where
  has : ∀ name, s.store.Has name → s'.store.Has name
  index : ∀ t, s'.store.indexOf t = s.store.indexOf t
  released : ∀ b, (s'.store.contentOf b).released = (s.store.contentOf b).released
  calls : ∀ {j : CallRef} {other : Call}, s'.calls[j]? = some other →
    (∃ call, s.calls[j]? = some call ∧ other.job = call.job ∧
      (other.dropped = false → call.dropped = false)) ∨
    other.job.owned? = none ∧ other.job.made? = none ∧ other.job.granted? = none ∧
      ∀ h, other.job.used? = some h → ∃ a, s.Keeps a h
  keeps : ∀ {a : Allocation} {h : Handle}, s.Keeps a h → s'.Keeps a h

private theorem Sound.rest {s s' : Service} (hs : s.Sound) (hr : Rests s s') (hl : s'.Locked)
    (hp : ∀ {i : CallRef} {call : Call}, s'.calls[i]? = some call → call.job.Proper)
    (hk : ∀ {i : CallRef} {call : Call}, s'.calls[i]? = some call → call.job.Knows s'.store) :
    s'.Sound := by
  constructor
  case locked => exact hl
  case proper => exact hp
  case knows => exact hk
  case live =>
    intro t key b hb
    rw [hr.index] at hb
    exact (hr.released b).trans (hs.live hb)
  case distinct =>
    intro t u key k b ht hu
    rw [hr.index] at ht hu
    exact hs.distinct ht hu
  case kept =>
    intro t key b hb
    rw [hr.index] at hb
    obtain ⟨a, hk, ht⟩ := hs.kept hb
    exact ⟨a, hr.keeps hk, ht⟩
  case owned =>
    intro i call b hc ho
    obtain ⟨c, hc, hj, -⟩ | ⟨hn, -⟩ := hr.calls hc
    · rw [hj] at ho
      refine ⟨(hr.released b).trans (hs.owned hc ho).1, fun t key hb ↦ ?_⟩
      rw [hr.index] at hb
      exact (hs.owned hc ho).2 t key hb
    · simp [hn] at ho
  case owner_unique =>
    intro i j call other b hi hj hc ho
    obtain ⟨c, hi, hic, -⟩ | ⟨hn, -⟩ := hr.calls hi
    · obtain ⟨d, hj, hjd, -⟩ | ⟨hn, -⟩ := hr.calls hj
      · exact hs.owner_unique hi hj (hic ▸ hc) (hjd ▸ ho)
      · simp [hn] at ho
    · simp [hn] at hc
  case made =>
    intro i call a b hc hm
    obtain ⟨c, hc, hj, -⟩ | ⟨-, hn, -⟩ := hr.calls hc
    · rw [hj] at hm
      exact hr.has _ (hs.made hc hm)
    · simp [hn] at hm
  case maker_unique =>
    intro i j call other a c b hi hj hc ho
    obtain ⟨_, hi, hic, -⟩ | ⟨-, hn, -⟩ := hr.calls hi
    · obtain ⟨_, hj, hjd, -⟩ | ⟨-, hn, -⟩ := hr.calls hj
      · exact hs.maker_unique hi hj (hic ▸ hc) (hjd ▸ ho)
      · simp [hn] at ho
    · simp [hn] at hc
  case used =>
    intro i call h hc hu
    obtain ⟨c, hc, hj, -⟩ | ⟨-, -, -, hn⟩ := hr.calls hc
    · rw [hj] at hu
      obtain ⟨a, hk⟩ := hs.used hc hu
      exact ⟨a, hr.keeps hk⟩
    · obtain ⟨a, hk⟩ := hn h hu
      exact ⟨a, hr.keeps hk⟩
  case granted =>
    intro i call g hc hd hg
    obtain ⟨c, hc, hj, hdrop⟩ | ⟨-, -, hn, -⟩ := hr.calls hc
    · rw [hj] at hg
      exact (hr.released _).trans (hs.granted hc (hdrop hd) hg)
    · simp [hn] at hg

/-- A handle that a call has ended with was put into an index. -/
theorem Sound.keeps_of_hasIssued {s : Service} (hs : s.Sound) {h : Handle}
    (hi : s.hasIssued h = true) : ∃ a, s.Keeps a h := by
  obtain ⟨call, hc, ho⟩ := Array.any_eq_true'.mp hi
  obtain ⟨i, hc⟩ := Array.mem_iff_getElem?.mp hc
  obtain ⟨a, hj, -⟩ := (hs.proper hc).handle (by simpa using ho)
  exact ⟨a, i, call, hc, by rw [hj]; rfl⟩

/-- A call keeps its job without a step of its own, or has just been made. -/
private theorem Sound.call_rests {supply : Supply} {s s' : Service} {action : Action}
    (hs : s.Sound) (ha : s.allows action = true) (hd : s.Does supply action s')
    (hne : ∀ i, action ≠ .step i) {j : CallRef} {other : Call} (hj : s'.calls[j]? = some other) :
    (∃ call, s.calls[j]? = some call ∧ other.job = call.job ∧
      (other.dropped = false → call.dropped = false)) ∨
    other.job.owned? = none ∧ other.job.made? = none ∧ other.job.granted? = none ∧
      ∀ h, other.job.used? = some h → ∃ a, s.Keeps a h := by
  obtain ⟨hj, -⟩ | ⟨request, job, rfl, hr, -, rfl, -⟩ | ⟨_, _, _, rfl, -⟩ |
    ⟨call, _, rfl, hc, -, rfl⟩ := hd.call_cases hj
  · exact .inl ⟨other, hj, rfl, id⟩
  · obtain ⟨ho, hm, hg, -, hu⟩ := Job.idle_of_ofRequest? hr
    refine .inr ⟨ho, hm, hg, fun h hh ↦ ?_⟩
    obtain ⟨mode, rfl⟩ := hu h hh
    exact hs.keeps_of_hasIssued ha
  · exact absurd rfl (hne j)
  · exact .inl ⟨call, hc, rfl, by simp⟩

/-- Without a step an allocation keeps its handle. -/
private theorem Keeps.rests {supply : Supply} {s s' : Service} {action : Action} {a : Allocation}
    {h : Handle} (hk : s.Keeps a h) (hd : s.Does supply action s') (hne : ∀ i, action ≠ .step i) :
    s'.Keeps a h := by
  obtain ⟨i, call, hc, hk⟩ := hk
  obtain ⟨call', hc', hjob⟩ := job?_eq_some.mp
    (hd.job_kept (job?_eq_some.mpr ⟨call, hc, rfl⟩) (hne i))
  exact ⟨i, call', hc', hjob ▸ hk⟩

/-- Content under a guard that a client holds is live. -/
theorem Sound.live_of_guard? {s : Service} {i : CallRef} {g : Guard} (hs : s.Sound)
    (hg : s.guard? i = some g) : (s.store.contentOf g.handle.storage).released = false := by
  obtain ⟨call, hc, hg⟩ := guard?_eq_some.mp hg
  obtain ⟨hdrop, ho⟩ := Call.guard?_eq_some.mp hg
  exact hs.granted hc hdrop ((hs.proper hc).granted? ho)

/-- What is under a guard that a client holds has been handed out. -/
theorem Sound.keeps_of_guard? {s : Service} {i : CallRef} {g : Guard} (hs : s.Sound)
    (hg : s.guard? i = some g) : ∃ a, s.Keeps a g.handle := by
  obtain ⟨call, hc, hg⟩ := guard?_eq_some.mp hg
  obtain ⟨-, ho⟩ := Call.guard?_eq_some.mp hg
  have hproper := hs.proper hc
  exact hs.used hc (Job.used?_of_granted? (hproper.granted? ho) hproper)

/-- Writing under guards neither releases content nor takes a release back. -/
theorem Sound.released_of_writes {s : Service} {action : Action} {storages : Array Storage}
    (hs : s.Sound) (hw : s.Writes action storages) (b : StorageRef) :
    (({ s.store with storages } : Store).contentOf b).released =
      (s.store.contentOf b).released := by
  cases hw with
  | @edit _ _ _ _ g _ hg hb hm he hl hc =>
    rw [hc]
    split
    · next hgb => rw [Content.released_setSide, hgb]
    · rfl
  | @swap _ _ _ g f hne hg hf hb hd hm hn hl hc =>
    rw [hc, Equiv.swap_apply_def]
    split_ifs with hbg hbf
    · rw [hbg, hs.live_of_guard? hg, hs.live_of_guard? hf]
    · rw [hbf, hs.live_of_guard? hg, hs.live_of_guard? hf]
    · rfl

private theorem rests_of_does {supply : Supply} {s s' : Service} {action : Action} (hs : s.Sound)
    (ha : s.allows action = true) (hd : s.Does supply action s') (hne : ∀ i, action ≠ .step i) :
    Rests s s' := by
  have hcalls {j : CallRef} {other : Call} (hj : s'.calls[j]? = some other) :=
    hs.call_rests ha hd hne hj
  have hkeeps {a : Allocation} {h : Handle} (hk : s.Keeps a h) : s'.Keeps a h := hk.rests hd hne
  cases hd with
  | invoke hr => exact ⟨fun _ ↦ id, fun _ ↦ rfl, fun _ ↦ rfl, hcalls, hkeeps⟩
  | @step i _ _ _ _ _ _ _ => exact absurd rfl (hne i)
  | drop hc hg hb =>
    exact ⟨fun _ ↦ (Store.has_setLock ..).mpr, fun _ ↦ Store.indexOf_setLock ..,
      fun _ ↦ by rw [Store.contentOf_setLock], hcalls, hkeeps⟩
  | edit hw | swap hw =>
    exact ⟨fun name ↦ (hw.has name).mpr, fun _ ↦ rfl, fun b ↦ hs.released_of_writes hw b, hcalls,
      hkeeps⟩
  | tend ht hg =>
    exact ⟨fun _ ↦ (hg.has _).mpr, hg.index, fun b ↦ by rw [hg.content], hcalls, hkeeps⟩

/-- Every action keeps a service sound. -/
theorem Sound.of_does {supply : Supply} {s s' : Service} {action : Action} (hs : s.Sound)
    (ha : s.allows action = true) (hd : s.Does supply action s') : s'.Sound := by
  by_cases hstep : ∃ i, action = .step i
  · obtain ⟨i, rfl⟩ := hstep
    cases hd with
    | step hc hn hr => exact hs.step hc hn hr
    | tend ht _ => cases ht
  · have hne (i : CallRef) : action ≠ .step i := fun h ↦ hstep ⟨i, h⟩
    refine hs.rest (rests_of_does hs ha hd hne) (hs.locked.of_does hd) (hd.proper hs.proper) ?_
    intro j other hj
    obtain ⟨hj, -⟩ | ⟨_, _, -, hr, -, rfl, -⟩ | ⟨_, _, _, rfl, -⟩ | ⟨call, g, -, hc, hg, rfl⟩ :=
      hd.call_cases hj
    · exact hs.knows_kept hd hj (hne j)
    · exact (Job.idle_of_ofRequest? hr).2.2.2.1 _
    · exact absurd rfl (hne j)
    · exact Job.knows_of_outcome? (Call.guard?_eq_some.mp hg).2 _

/-- Every reachable service is sound. -/
theorem Reachable.sound {limits : List Limits} {s : Service} (hr : Reachable limits s) : s.Sound :=
  hr.induct (sound_withTables limits) fun _ _ _ _ hs ha h ↦ hs.of_does ha (does_of_act? h)

/-- How a step of a call moves content and keys. -/
theorem Sound.moves {supply : Supply} {s s' : Service} {i : CallRef} {job next : Job}
    (hs : s.Sound) (hd : s.Does supply (.step i) s') (hj : s.job? i = some job)
    (hj' : s'.job? i = some next) : Moves s.store s'.store job next := by
  obtain ⟨instr, x, hn, hrun, hx⟩ := hd.job_step hj
  cases hj'.symm.trans hx
  obtain ⟨call, hc, rfl⟩ := job?_eq_some.mp hj
  exact .of_run (hs.knows hc) hn hrun

/-- An allocation keeps its handle whatever happens. -/
theorem Keeps.of_does {supply : Supply} {s s' : Service} {action : Action} {a : Allocation}
    {h : Handle} (hk : s.Keeps a h) (hs : s.Sound) (hd : s.Does supply action s') :
    s'.Keeps a h := by
  by_cases hstep : ∃ i, action = .step i
  · obtain ⟨i, rfl⟩ := hstep
    cases hd with
    | step hc hn hr => exact hk.step hc (.of_run (hs.knows hc) hn hr)
    | tend ht _ => cases ht
  · exact hk.rests hd fun i h ↦ hstep ⟨i, h⟩

theorem Keeps.run {limits : List Limits} {s s' : Service} {a : Allocation} {h : Handle}
    {k : History} (hk : s.Keeps a h) (hs : Reachable limits s) (hr : s.run? k = some s') :
    s'.Keeps a h := by
  refine (run_induct (P := fun s ↦ s.Sound ∧ s.Keeps a h) (fun _ _ _ _ h ha hact ↦ ?_)
    ⟨hs.sound, hk⟩ hr).2
  have hd := does_of_act? hact
  exact ⟨h.1.of_does ha hd, h.2.of_does h.1 hd⟩

/-! ### What is known of one call -/

section Call

variable {s : Service} {i : CallRef} {job : Job}

/-- What a call under way has read under its locks. -/
theorem Sound.knows_job? (hs : s.Sound) (hj : s.job? i = some job) : job.Knows s.store := by
  obtain ⟨call, hcall, rfl⟩ := job?_eq_some.mp hj
  exact hs.knows hcall

/-- A call that has something to do is not at its end, so it holds what its job has locked. -/
theorem Sound.holds_of_next (hs : s.Sound) {instr : Instr Job} (hj : s.job? i = some job)
    (hn : job.progress = .next instr) {name : LockName} {mode : Mode}
    (hh : (name, mode) ∈ job.held) : s.Holds i name mode := by
  obtain ⟨call, hc, rfl⟩ := job?_eq_some.mp hj
  exact ⟨call, hc, by simpa [Call.held, hs.locked.not_dropped hc hn] using hh⟩

/-- Who has been handed the same storage has made the same allocation and has the same handle. -/
theorem Sound.keeps_unique (hs : s.Sound) {a c : Allocation} {h g : Handle} (hk : s.Keeps a h)
    (hg : s.Keeps c g) (he : h.storage = g.storage) : a = c ∧ h = g := by
  obtain ⟨j, maker, hj, hkept⟩ := hk
  obtain ⟨k, other, hk, hkept'⟩ := hg
  have hmade := Job.made?_of_kept? hkept
  rw [he] at hmade
  obtain rfl := hs.maker_unique hj hk hmade (Job.made?_of_kept? hkept')
  cases hj.symm.trans hk
  cases hkept.symm.trans hkept'
  exact ⟨rfl, rfl⟩

end Call

end Service

end SessionBuffers
