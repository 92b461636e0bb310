import SessionBuffers.Proofs.Provision

/-!
# Freeing undoes allocating

A free whose locks are free succeeds exactly when the table has the key and the roster lists it,
whatever else the two have to do with each other. It then takes the key out of both and gives up the
content; otherwise it leaves a count and an event (`Service.Frees`). So a buffer that is allocated
under a new key and freed again leaves every index and every roster as it was, and its key leads
nowhere until its number is drawn again (`Service.Absent`).
-/

namespace SessionBuffers

/-- A key that was not recorded can be recorded and forgotten. -/
theorem Roster.remove_add {r : Roster} {k : Key} (h : r.contains k = false) :
    (r.add k).remove k = r := by
  have hk : k ∉ r.keys := by
    intro hmem
    rw [contains, Std.ExtTreeSet.contains_iff_mem.mpr hmem] at h
    cases h
  have hkeys : ((r.add k).remove k).keys = r.keys := by
    ext key
    by_cases he : k = key
    · subst he
      simp [add, remove, hk]
    · simp [add, remove, he]
  cases r
  exact congrArg (Roster.mk · _) hkeys

/-- A key that was not in an index can be put in and taken out. -/
theorem Index.erase_insert {index : Index} {k : Key} (h : index.contains k = false)
    (b : StorageRef) : (index.insert k b).erase k = index := by
  apply Std.ExtTreeMap.ext_getElem?
  intro key
  rw [getElem?_erase, getElem?_insert]
  by_cases he : k = key
  · subst he
    rw [if_pos rfl, not_contains_iff.mp h]
  · rw [if_neg he, if_neg he]

/-! ### What a free leaves behind -/

namespace Removal

variable {f : Removal} {supply : Supply} {who : CallRef} {job : Job} {s s' : Store} {a : Aftermath}
  {b : StorageRef} {inTable : Bool}

/-- Whether there is anything for a free to take out: the table has the key, and the registry lists
it. -/
def Owns (f : Removal) (s : Store) : Prop :=
  (s.indexOf f.table).contains f.key = true ∧ (s.rosterOf f.registry).contains f.key = true

/-- What a free leaves behind that has found its buffer. -/
def freed (f : Removal) (s : Store) (b : StorageRef) : Aftermath :=
  (((((s.untouched f.table f.registry).withIndex ((s.indexOf f.table).erase f.key)).withRoster
    ((s.rosterOf f.registry).remove f.key)).withContent b .gone).counted .frees 1).logged
    (.freed f.key)

/-- What a free leaves behind that has found nothing to take out. -/
def missed (f : Removal) (s : Store) : Aftermath :=
  ((s.untouched f.table f.registry).counted .freeMisses 1).logged
    (.freeMissed f.key ((s.indexOf f.table).contains f.key))

/-- What there is while a free looks for its buffer: it holds its registry and its table. -/
private def looking (f : Removal) (who : CallRef) (s : Store) : Aftermath :=
  ((s.untouched f.table f.registry).withLock (.registry f.registry) (.exclusive who)).withLock
    (.table f.table) (.exclusive who)

variable (supply who) in
private theorem reaches_find (ht : s.Has (.table f.table)) (hr : s.Has (.registry f.registry))
    (hlt : s.lockOf (.table f.table) = .free) (hlr : s.lockOf (.registry f.registry) = .free) :
    ∃ s', Job.Reaches supply who f.table f.registry (.freeing f .lockRegistry) s (.freeing f .find)
      (f.looking who s) s' := by
  have h := Job.Reaches.rest supply who f.table f.registry (.freeing f .lockRegistry) s
  obtain ⟨_, h⟩ := h.acquire rfl hr hlr
  exact h.acquire rfl (h.2.has_table.mpr ht) (by simpa using hlt)

/-- When its registry and its table are given back, all locks are as they were. -/
private theorem lock_restored (hlt : s.lockOf (.table f.table) = .free)
    (hlr : s.lockOf (.registry f.registry) = .free) {lock : LockName → Lock}
    (hlock : ∀ name, lock name = if name = .registry f.registry ∨ name = .table f.table then .free
      else s.lockOf name) : lock = s.lockOf := by
  funext name
  rw [hlock]
  split
  · next he =>
    obtain rfl | rfl := he
    · exact hlr.symm
    · exact hlt.symm
  · rfl

/-- A free that has found nothing gives its locks back, counts that and says so. -/
private theorem reaches_miss (ht : s.Has (.table f.table)) (hr : s.Has (.registry f.registry))
    (hlt : s.lockOf (.table f.table) = .free) (hlr : s.lockOf (.registry f.registry) = .free)
    (hin : inTable = (s.indexOf f.table).contains f.key)
    (h : Job.Reaches supply who f.table f.registry job s (.freeing f (.missRegistry inTable))
      (f.looking who s) s') :
    ∃ s'', Job.Reaches supply who f.table f.registry job s
      (.freeing f (.ended (.refused (.notFound f.key)))) (f.missed s) s'' := by
  obtain ⟨_, h⟩ := h.release rfl (h.2.has_registry.mpr hr) (by simp [looking])
  obtain ⟨_, h⟩ := h.release rfl (h.2.has_table.mpr ht) (by simp [looking])
  obtain ⟨_, h⟩ := h.count rfl ht
  obtain ⟨_, h⟩ := h.log rfl
  subst hin
  refine ⟨_, h.of_eq (Aftermath.ext rfl rfl rfl rfl rfl (lock_restored hlt hlr fun name ↦ ?_)
    rfl rfl)⟩
  simp only [looking, Aftermath.logged_lock, Aftermath.counted_lock, Aftermath.withLock_lock,
    Store.untouched_lock, Function.update_apply]
  grind

variable (supply who) in
/-- A free that has nothing to take out leaves a count and an event. -/
private theorem reaches_missed (ht : s.Has (.table f.table)) (hr : s.Has (.registry f.registry))
    (hlt : s.lockOf (.table f.table) = .free) (hlr : s.lockOf (.registry f.registry) = .free)
    (hnot : ¬ f.Owns s) :
    ∃ s', Job.Reaches supply who f.table f.registry (.freeing f .lockRegistry) s
      (.freeing f (.ended (.refused (.notFound f.key)))) (f.missed s) s' := by
  obtain ⟨_, h⟩ := reaches_find supply who ht hr hlt hlr
  have h := h.readIndex rfl ht
  cases hb : (s.indexOf f.table)[f.key]? with
  | none =>
    simp only [Function.comp_apply, looking, Aftermath.withLock_index, Store.untouched_index,
      hb] at h
    exact reaches_miss ht hr hlt hlr (Index.not_contains_iff.mpr hb).symm h
  | some b =>
    simp only [Function.comp_apply, looking, Aftermath.withLock_index, Store.untouched_index,
      hb] at h
    have hin := Index.contains_iff.mpr ⟨b, hb⟩
    have hlisted : (s.rosterOf f.registry).contains f.key = false := by
      simpa [Owns, hin] using hnot
    have h := h.readRoster rfl hr
    simp only [Function.comp_apply, Aftermath.withLock_roster, Store.untouched_roster, hlisted,
      Bool.false_eq_true, if_false] at h
    exact reaches_miss ht hr hlt hlr hin.symm h

variable (supply who) in
/-- A free that finds its buffer takes it out and gives its content up. -/
private theorem reaches_freed (ht : s.Has (.table f.table)) (hr : s.Has (.registry f.registry))
    (hlt : s.lockOf (.table f.table) = .free) (hlr : s.lockOf (.registry f.registry) = .free)
    (hb : (s.indexOf f.table)[f.key]? = some b)
    (hlisted : (s.rosterOf f.registry).contains f.key = true)
    (hhas : s.Has (.content b)) (hlb : s.lockOf (.content b) = .free) :
    ∃ s', Job.Reaches supply who f.table f.registry (.freeing f .lockRegistry) s
      (.freeing f (.ended .done)) (f.freed s b) s' := by
  rw [Store.has_content] at hhas
  obtain ⟨_, h⟩ := reaches_find supply who ht hr hlt hlr
  have h := h.readIndex rfl ht
  simp only [Function.comp_apply, looking, Aftermath.withLock_index, Store.untouched_index,
    hb] at h
  have h := h.readRoster rfl hr
  simp only [Function.comp_apply, Aftermath.withLock_roster, Store.untouched_roster, hlisted,
    if_true] at h
  obtain ⟨_, h⟩ := h.acquire rfl (h.2.has_content.mpr hhas) (by simpa using hlb)
  obtain ⟨_, h⟩ := h.erase rfl ht
  obtain ⟨_, h⟩ := h.remove rfl hr
  obtain ⟨_, h⟩ := h.release rfl (h.2.has_registry.mpr hr) (by simp)
  obtain ⟨_, h⟩ := h.release rfl (h.2.has_table.mpr ht) (by simp)
  obtain ⟨_, h⟩ := h.dispose rfl hhas
  obtain ⟨_, h⟩ := h.release rfl (h.2.has_content.mpr hhas) (by simp)
  obtain ⟨_, h⟩ := h.count rfl ht
  obtain ⟨_, h⟩ := h.log rfl
  refine ⟨_, h.of_eq (Aftermath.ext rfl rfl rfl rfl rfl (lock_restored hlt hlr fun name ↦ ?_)
    rfl rfl)⟩
  simp only [Aftermath.logged_lock, Aftermath.counted_lock, Aftermath.withContent_lock,
    Aftermath.withRoster_lock, Aftermath.withIndex_lock, Aftermath.withLock_lock,
    Store.untouched_lock, Function.update_apply]
  grind

end Removal

/-! ### Calls that look for a key in vain -/

/-- The key that a job is about to look for in a table, or has looked for. -/
def Job.seeks? : Job → Option (TableRef × Key)
  | freeing f _ => some (f.table, f.key)
  | lookingUp l _ => some (l.table, l.key)
  | _ => none

/-- Whether a free has not looked for its key yet, or has found nothing to take out. -/
def Removal.Phase.Misses (key : Key) : Phase → Prop
  | lockRegistry | lockTable | find | missRegistry _ | missTable _ | countMiss _ | reportMiss _ =>
    True
  | ended o => o = .refused (.notFound key)
  | _ => False

/-- Whether a lookup has not looked for its key yet, or has not found it. -/
def Lookup.Phase.Misses (key : Key) : Phase → Prop
  | lockTable | find | missTable | countMiss | reportMiss => True
  | ended o => o = .refused (.notFound key)
  | _ => False

/-- Whether a job that looks for this key in this table has found nothing so far. -/
def Job.Misses (t : TableRef) (key : Key) : Job → Prop
  | freeing f phase => f.table = t → f.key = key → phase.Misses key
  | lookingUp l phase => l.table = t → l.key = key → phase.Misses key
  | _ => True

section Misses

variable {supply : Supply} {who : CallRef} {s s' : Store} {t : TableRef} {key : Key}

private theorem Removal.misses_step {f : Removal} {phase x : Phase} {step : Instr Phase}
    (h : phase.Misses f.key) (hnone : (s.indexOf f.table)[f.key]? = none)
    (hp : f.progress phase = .next step) (hr : step.run supply who s = some (x, s')) :
    x.Misses f.key := by
  cases phase with
  | find =>
    cases hp
    obtain ⟨-, rfl, -⟩ := Instr.run_readIndex.mp hr
    rw [hnone]
    trivial
  | checkOwner b | lockContent b | erase b | forget b | unlockRegistry b | unlockTable b
  | dispose b | unlockContent b | count | report => exact h.elim
  | ended o => cases hp
  | _ =>
    cases hp
    apply Instr.Always.of_run _ hr
    simp [Instr.Always, Phase.Misses]

private theorem Lookup.misses_step {l : Lookup} {phase x : Phase} {step : Instr Phase}
    (h : phase.Misses l.key) (hnone : (s.indexOf l.table)[l.key]? = none)
    (hp : l.progress phase = .next step) (hr : step.run supply who s = some (x, s')) :
    x.Misses l.key := by
  cases phase with
  | find =>
    cases hp
    obtain ⟨-, rfl, -⟩ := Instr.run_readIndex.mp hr
    rw [hnone]
    trivial
  | lockContent b | unlockTable b | count b => exact h.elim
  | ended o => cases hp
  | _ =>
    cases hp
    apply Instr.Always.of_run _ hr
    simp [Instr.Always, Phase.Misses]

/-- Whoever looks for a key that is not in the index does not find it. -/
theorem Job.Misses.step {job next : Job} {instr : Instr Job} (h : job.Misses t key)
    (hnone : (s.indexOf t)[key]? = none) (hn : job.progress = .next instr)
    (hr : instr.run supply who s = some (next, s')) : next.Misses t key := by
  cases job with
  | freeing f phase =>
    obtain ⟨step, hp, rfl⟩ := Progress.map_eq_next.mp hn
    obtain ⟨x, hx, rfl⟩ := Instr.run_map_eq_some.mp hr
    rintro rfl rfl
    exact Removal.misses_step (h rfl rfl) hnone hp hx
  | lookingUp l phase =>
    obtain ⟨step, hp, rfl⟩ := Progress.map_eq_next.mp hn
    obtain ⟨x, hx, rfl⟩ := Instr.run_map_eq_some.mp hr
    rintro rfl rfl
    exact Lookup.misses_step (h rfl rfl) hnone hp hx
  | _ =>
    obtain ⟨step, hp, rfl⟩ := Progress.map_eq_next.mp hn
    obtain ⟨x, hx, rfl⟩ := Instr.run_map_eq_some.mp hr
    trivial

theorem Job.Fresh.misses {request : Request} {job : Job} (h : Job.Fresh s request job)
    (t : TableRef) (key : Key) : job.Misses t key := by
  cases h with
  | free | lookup =>
    rintro - -
    trivial
  | _ => trivial

/-- A job that has looked for a key in vain says that the key has not been found. -/
theorem Job.Misses.outcome {job : Job} {o : Outcome} (h : job.Misses t key)
    (hseeks : job.seeks? = some (t, key)) (ho : job.outcome? = some o) :
    o = .refused (.notFound key) := by
  rw [Job.outcome?_eq_some] at ho
  cases job with
  | freeing f phase =>
    cases hseeks
    cases phase <;> cases ho
    exact h rfl rfl
  | lookingUp l phase =>
    cases hseeks
    cases phase <;> cases ho
    exact h rfl rfl
  | _ => cases hseeks

/-- What puts a key into an index is an allocation. -/
private theorem Job.exists_allocating {job : Job} {b : StorageRef} {fresh present : Job}
    (hn : job.progress = .next (.insert t key b fresh present)) :
    ∃ a, job = .allocating a (.insert b key) ∧ a.table = t := by
  cases job with
  | allocating a phase =>
    cases phase <;> cases hn
    exact ⟨a, rfl, rfl⟩
  | attaching a phase =>
    cases phase with
    | start =>
      simp only [progress, Attachment.progress] at hn
      split at hn <;> cases hn
    | _ => cases hn
  | editing c phase =>
    cases phase with
    | act =>
      simp only [progress, RosterCall.progress, RosterCall.act] at hn
      split at hn <;> cases hn
    | _ => cases hn
  | _ _ phase => cases phase <;> cases hn

/-- A key that a step brings into an index is put there by it. -/
private theorem Instr.eq_insert_of_onIndex {σ : Type} {instr : Instr σ} {index : Index}
    (hnone : index[key]? = none) (hsome : (instr.onIndex t index)[key]? ≠ none) :
    ∃ b fresh present, instr = .insert t key b fresh present := by
  cases instr with
  | insert u k b fresh present =>
    simp only [onIndex] at hsome
    split_ifs at hsome with hu hin
    · exact absurd hnone hsome
    · rw [Index.getElem?_insert] at hsome
      split_ifs at hsome with hk
      · subst hu hk
        exact ⟨b, fresh, present, rfl⟩
      · exact absurd hnone hsome
    · exact absurd hnone hsome
  | erase u k next =>
    simp only [onIndex] at hsome
    split_ifs at hsome with hu
    · rw [Index.getElem?_erase] at hsome
      split_ifs at hsome
      · exact absurd rfl hsome
      · exact absurd hnone hsome
    · exact absurd hnone hsome
  | _ => exact absurd hnone hsome

/-- An allocation that is about to put a key into an index after a step has drawn its number with
this step. -/
private theorem Job.drawn_of_insert {job : Job} {a : Allocation} {b : StorageRef}
    {instr : Instr Job} (hn : job.progress = .next instr)
    (hr : instr.run supply who s = some (.allocating a (.insert b key), s')) :
    instr.note? supply s = some (.drawn a.table key.buffer) := by
  cases job <;> obtain ⟨step, hp, rfl⟩ := Progress.map_eq_next.mp hn <;>
    obtain ⟨x, hx, hnext⟩ := Instr.run_map_eq_some.mp hr <;> cases hnext
  case allocating phase =>
    cases phase with
    | draw c =>
      cases hp
      obtain ⟨ht, hkey, -⟩ := Instr.run_draw.mp hx
      cases hkey
      simp [Instr.map, Instr.note?]
    | checkLimits =>
      cases hp
      obtain ⟨-, hkey, -⟩ := Instr.run_consult.mp hx
      split at hkey <;> cases hkey
    | ended o => cases hp
    | _ =>
      cases hp
      have hne := Instr.Always.of_run (P := fun x ↦ x ≠ .insert b key) (by simp [Instr.Always]) hx
      exact absurd rfl hne

end Misses

namespace Service

variable {limits : List Limits} {supply : Supply} {s s' s₁ s₂ u : Service} {action : Action}
  {h : History} {i n : CallRef} {t : TableRef} {r : RegistryRef} {key : Key} {f : Removal}
  {user kernel : UInt64} {g : Handle} {mode : Mode} {holders : List CallRef} {o : Outcome}

/-! ### A free by itself -/

/-- What a request to free comes to by itself, and all that it leaves behind. -/
structure Frees (supply : Supply) (s : Service) (f : Removal) : Prop where
  /-- It succeeds exactly when there is anything to take out. -/
  done_iff : ∀ o s', s.Completes supply (.free f.table f.registry f.key.buffer) o s' →
    (o = .done ↔ f.Owns s.store)
  /-- The key is gone from the index and from the roster, and so is the content. -/
  freed : f.Owns s.store → ∃ b s', (s.store.indexOf f.table)[f.key]? = some b ∧
    s.Completes supply (.free f.table f.registry f.key.buffer) .done s' ∧
    s.store.Becomes s.calls.size f.table f.registry (f.freed s.store b) s'.store ∧
    (s'.store.indexOf f.table)[f.key]? = none ∧
    (s'.store.rosterOf f.registry).contains f.key = false ∧ (s'.store.contentOf b).Emptied
  /-- It is refused, and says whether the table has the key all the same. -/
  missed : ¬ f.Owns s.store → ∃ s',
    s.Completes supply (.free f.table f.registry f.key.buffer) (.refused (.notFound f.key)) s' ∧
    s.store.Becomes s.calls.size f.table f.registry (f.missed s.store) s'.store

/-- A free begins by itself as its job. -/
private theorem ofRequest?_free (ht : s.store.Has (.table f.table))
    (hr : s.store.Has (.registry f.registry))
    (hf : f.key.session = s.store.sessionOf f.registry) :
    Job.ofRequest? s.store (.free f.table f.registry f.key.buffer) =
      some (.freeing f .lockRegistry) := by
  have hnew : Job.ofRequest? s.store (.free f.table f.registry f.key.buffer) =
      some (.freeing ⟨f.table, f.registry, ⟨s.store.sessionOf f.registry, f.key.buffer⟩⟩
        .lockRegistry) := Job.ofRequest?_eq_some.mpr (.free ht hr)
  rwa [← hf] at hnew

/-- A free that finds its buffer succeeds. -/
private theorem completes_freed (supply : Supply)
    (hf : f.key.session = s.store.sessionOf f.registry)
    (hlt : s.store.lock? (.table f.table) = some .free)
    (hlr : s.store.lock? (.registry f.registry) = some .free) (howns : f.Owns s.store)
    (hlb : ∀ b, (s.store.indexOf f.table)[f.key]? = some b →
      s.store.lock? (.content b) = some .free) :
    ∃ b s', (s.store.indexOf f.table)[f.key]? = some b ∧
      s.Completes supply (.free f.table f.registry f.key.buffer) .done s' ∧
      s.store.Becomes s.calls.size f.table f.registry (f.freed s.store b) s'.store := by
  obtain ⟨ht, hlt⟩ := Store.has_of_lock? hlt
  obtain ⟨hr, hlr⟩ := Store.has_of_lock? hlr
  obtain ⟨b, hb⟩ := Index.contains_iff.mp howns.1
  obtain ⟨hhas, hfree⟩ := Store.has_of_lock? (hlb b hb)
  obtain ⟨_, h⟩ := Removal.reaches_freed supply s.calls.size ht hr hlt hlr hb howns.2 hhas hfree
  obtain ⟨s', hc, hbecomes⟩ := completes_of_reaches rfl (ofRequest?_free ht hr hf) h rfl
  exact ⟨b, s', hb, hc, hbecomes⟩

/-- A free that has nothing to take out is refused. -/
private theorem completes_missed (supply : Supply)
    (hf : f.key.session = s.store.sessionOf f.registry)
    (hlt : s.store.lock? (.table f.table) = some .free)
    (hlr : s.store.lock? (.registry f.registry) = some .free) (hnot : ¬ f.Owns s.store) : ∃ s',
    s.Completes supply (.free f.table f.registry f.key.buffer) (.refused (.notFound f.key)) s' ∧
      s.store.Becomes s.calls.size f.table f.registry (f.missed s.store) s'.store := by
  obtain ⟨ht, hlt⟩ := Store.has_of_lock? hlt
  obtain ⟨hr, hlr⟩ := Store.has_of_lock? hlr
  obtain ⟨_, h⟩ := Removal.reaches_missed supply s.calls.size ht hr hlt hlr hnot
  exact completes_of_reaches rfl (ofRequest?_free ht hr hf) h rfl

/-- A free whose locks are free does what it should. -/
theorem frees_of_free (hf : f.key.session = s.store.sessionOf f.registry)
    (hlt : s.store.lock? (.table f.table) = some .free)
    (hlr : s.store.lock? (.registry f.registry) = some .free)
    (hlb : ∀ b, (s.store.indexOf f.table)[f.key]? = some b →
      (s.store.rosterOf f.registry).contains f.key = true →
      s.store.lock? (.content b) = some .free) : s.Frees supply f := by
  constructor
  case done_iff =>
    intro o s' hc
    constructor
    · rintro rfl
      by_contra hnot
      obtain ⟨_, hrefused, -⟩ := completes_missed supply hf hlt hlr hnot
      cases (hc.unique hrefused).1
    · intro howns
      obtain ⟨_, _, -, hdone, -⟩ :=
        completes_freed supply hf hlt hlr howns fun b hb ↦ hlb b hb howns.2
      exact (hc.unique hdone).1
  case freed =>
    intro howns
    obtain ⟨b, s', hb, hc, hbecomes⟩ :=
      completes_freed supply hf hlt hlr howns fun b hb ↦ hlb b hb howns.2
    refine ⟨b, s', hb, hc, hbecomes, ?_, ?_, ?_⟩
    · rw [hbecomes.index_self]
      simp [Removal.freed]
    · rw [hbecomes.roster_self]
      simp [Removal.freed, Roster.contains, Roster.remove]
    · rw [hbecomes.content]
      simp [Removal.freed]
  case missed => exact completes_missed supply hf hlt hlr

/-! ### A lookup of a key that is not there -/

/-- A lookup that is let in and finds nothing is told so. -/
theorem completes_lookup_of_none (supply : Supply) (mode : Mode)
    (hlt : s.store.lock? (.table t) = some (.shared holders))
    (hnone : (s.store.indexOf t)[key]? = none) :
    ∃ s', s.Completes supply (.lookup t key mode) (.refused (.notFound key)) s' := by
  obtain ⟨ht, hlt⟩ := Store.has_of_lock? hlt
  have h := Job.Reaches.rest supply s.calls.size t 0 (.lookingUp ⟨t, key, mode⟩ .lockTable) s.store
  obtain ⟨_, h⟩ := h.share rfl ht hlt
  have h := h.readIndex rfl ht
  simp only [Function.comp_apply, Aftermath.withLock_index, Store.untouched_index, hnone] at h
  obtain ⟨_, h⟩ := h.releaseAs rfl (h.2.has_table.mpr ht)
  obtain ⟨_, h⟩ := h.count rfl ht
  obtain ⟨_, h⟩ := h.log rfl
  have hjob : Job.ofRequest? s.store (.lookup t key mode) =
      some (.lookingUp ⟨t, key, mode⟩ .lockTable) := Job.ofRequest?_eq_some.mpr (.lookup ht)
  obtain ⟨s', hc, -⟩ := completes_of_reaches rfl hjob h rfl
  exact ⟨s', hc⟩

/-! ### A key that leads nowhere -/

/-- Whether a key is not in the index of a table, nobody is about to put it there, and no call from
`n` on has found it. -/
structure Absent (s : Service) (n : CallRef) (t : TableRef) (key : Key) : Prop where
  index : (s.store.indexOf t)[key]? = none
  unclaimed : ∀ i a b k, s.job? i = some (.allocating a (.insert b k)) → a.table = t → k ≠ key
  misses : ∀ i job, n ≤ i → s.job? i = some job → job.Misses t key

/-- Unless its number is drawn, a key that leads nowhere goes on to do so. -/
theorem Absent.of_act? (ha : s.Absent n t key) (hact : s.act? supply action = some s')
    (hdrawn : ∀ i, s.note? supply action ≠ some (i, .drawn t key.buffer)) : s'.Absent n t key := by
  have hd := does_of_act? hact
  constructor
  case index =>
    obtain ⟨i, job, instr, next, rfl, hj, hn, hr, -⟩ | hne := hd.step_or
    · rw [(Instr.changes_of_run hr).index]
      by_contra hin
      obtain ⟨b, fresh, present, rfl⟩ := Instr.eq_insert_of_onIndex ha.index hin
      obtain ⟨a, rfl, htable⟩ := Job.exists_allocating hn
      exact ha.unclaimed i a b key hj htable rfl
    · rw [(hd.views_kept hne).1]
      exact ha.index
  case unclaimed =>
    intro i a b k hj htable
    obtain ⟨hold, -⟩ | ⟨request, -, hr, -⟩ | ⟨job, instr, rfl, hjob, hn, hr⟩ := hd.job_cases hj
    · exact ha.unclaimed i a b k hold htable
    · cases Job.ofRequest?_eq_some.mp hr
    · rintro rfl
      have hnote : instr.note? supply s.store = some (.drawn a.table k.buffer) :=
        Job.drawn_of_insert hn hr
      apply hdrawn i
      rw [note?_step hjob hn, hnote, htable]
      rfl
  case misses =>
    intro i job hi hj
    obtain ⟨hold, -⟩ | ⟨request, -, hr, -⟩ | ⟨before, instr, rfl, hbefore, hn, hr⟩ :=
      hd.job_cases hj
    · exact ha.misses i job hi hold
    · exact (Job.ofRequest?_eq_some.mp hr).misses t key
    · exact (ha.misses i before hi hbefore).step ha.index hn hr

theorem Absent.run (ha : s.Absent n t key) (hr : s.run? h = some s')
    (hdrawn : key.buffer ∉ drawnFrom t (s.notes h)) : s'.Absent n t key := by
  induction h generalizing s with
  | nil =>
    cases hr
    exact ha
  | cons e h ih =>
    obtain ⟨-, u, hact, hr⟩ := run?_cons_eq_some.mp hr
    rw [notes_cons hact, drawnFrom_append, List.mem_append, not_or] at hdrawn
    apply ih _ hr hdrawn.2
    apply ha.of_act? hact
    intro i hnote
    apply hdrawn.1
    simp [drawnFrom, hnote, Note.drawnFrom?]

/-- When a table is free, nobody is about to put anything into its index. -/
theorem Reachable.absent (hs : Reachable limits s) (hlt : s.store.lockOf (.table t) = .free)
    (hnone : (s.store.indexOf t)[key]? = none) : s.Absent s.calls.size t key where
  index := hnone
  unclaimed := by
    rintro i a b k hj rfl -
    have hheld : (.table a.table, .exclusive) ∈ (Job.allocating a (.insert b k)).held := by
      simp [Job.held, Allocation.held]
    have hholds := (hs.locked.holds_iff _ _ _).mpr (hs.locked.holds_of_held hj (by simp) hheld)
    rw [hlt] at hholds
    exact absurd hholds Lock.not_holds_free
  misses := by
    intro i job hi hj
    obtain ⟨call, hc, -⟩ := job?_eq_some.mp hj
    exact absurd (Array.getElem?_eq_some_iff.mp hc).1 (Nat.not_lt.mpr hi)

/-- Whether a key leads nowhere: it is not in the index; every free and every lookup of it since
call `n` that has ended has ended with its not being found; and so does every further one. -/
structure LeadsNowhere (s : Service) (n : CallRef) (t : TableRef) (key : Key) : Prop where
  index : (s.store.indexOf t)[key]? = none
  ended : ∀ i job o, n ≤ i → s.job? i = some job → job.seeks? = some (t, key) →
    job.outcome? = some o → o = .refused (.notFound key)
  free : ∀ supply r, s.store.lock? (.table t) = some .free →
    s.store.lock? (.registry r) = some .free → s.store.sessionOf r = key.session →
    ∃ s', s.Completes supply (.free t r key.buffer) (.refused (.notFound key)) s'
  lookup : ∀ supply mode holders, s.store.lock? (.table t) = some (.shared holders) →
    ∃ s', s.Completes supply (.lookup t key mode) (.refused (.notFound key)) s'

theorem Absent.leadsNowhere (ha : s.Absent n t key) : s.LeadsNowhere n t key where
  index := ha.index
  ended i job o hi hj hseeks ho := (ha.misses i job hi hj).outcome hseeks ho
  free supply r hlt hlr hsession := by
    have hnot : ¬ Removal.Owns ⟨t, r, key⟩ s.store := by
      rintro ⟨hin, -⟩
      rw [Index.not_contains_iff.mpr ha.index] at hin
      cases hin
    have hfrees : s.Frees supply ⟨t, r, key⟩ := frees_of_free hsession.symm hlt hlr
      fun b hb ↦ by cases ha.index.symm.trans hb
    obtain ⟨s', hc, -⟩ := hfrees.missed hnot
    exact ⟨s', hc⟩
  lookup supply mode holders hlt := completes_lookup_of_none supply mode hlt ha.index

/-! ### An allocation and a free of what it gave -/

/-- Whether of an allocation that gave a handle nothing is left: every index and every roster is as
it was, and so is all content but what was given, which has been given up. -/
structure Undone (s s' : Service) (g : Handle) : Prop where
  index : ∀ t, s'.store.indexOf t = s.store.indexOf t
  roster : ∀ r, s'.store.rosterOf r = s.store.rosterOf r
  content : ∀ b, b ≠ g.storage → s'.store.contentOf b = s.store.contentOf b
  emptied : (s'.store.contentOf g.storage).Emptied

/-- An allocation with its locks free that gives a handle has put its key and its storage where
they belong. -/
private theorem becomes_of_handle (hlt : s.store.lock? (.table t) = some .free)
    (hlr : s.store.lock? (.registry r) = some .free)
    (hnew : (s.store.indexOf t).contains ⟨s.store.sessionOf r, s.store.nextIdOf t⟩ = false)
    (hc : s.Completes supply (.allocate t r user kernel) (.handle g) s₁) :
    g = ⟨⟨s.store.sessionOf r, s.store.nextIdOf t⟩, s.store.storages.size⟩ ∧
      s.store.Becomes s.calls.size t r
        (Allocation.granted ⟨t, r, s.store.sessionOf r, user, kernel⟩ s.store) s₁.store := by
  have ha : s.Allocates supply ⟨t, r, s.store.sessionOf r, user, kernel⟩ :=
    allocates_of_free hlt hlr rfl
  by_cases hunmet : s.Unmet supply ⟨t, r, s.store.sessionOf r, user, kernel⟩
  · obtain ⟨_, hrefused, -⟩ := ha.unmet hunmet
    cases (hc.unique hrefused).1
  · cases hslot : supply.slot user kernel with
    | false =>
      obtain ⟨_, hrefused, -⟩ := ha.crowded hunmet hslot
      cases (hc.unique hrefused).1
    | true =>
      obtain ⟨_, hgranted, hbecomes, -⟩ := ha.fresh hunmet hslot (Index.not_contains_iff.mp hnew)
      obtain ⟨hg, rfl⟩ := hc.unique hgranted
      exact ⟨Outcome.handle.inj hg, hbecomes⟩

/-- What an allocation has put into the index and into the roster, a free takes out again. -/
private theorem undone_of_becomes {a : Allocation} {who who' : CallRef}
    (hnew : (s.store.indexOf a.table).contains (a.nextKey s.store) = false)
    (hunlisted : (s.store.rosterOf a.registry).contains (a.nextKey s.store) = false)
    (h : s.store.Becomes who a.table a.registry (a.granted s.store) s₁.store)
    (h' : s₁.store.Becomes who' a.table a.registry
      (Removal.freed ⟨a.table, a.registry, a.nextKey s.store⟩ s₁.store s.store.storages.size)
      s₂.store) : s.Undone s₂ ⟨a.nextKey s.store, s.store.storages.size⟩ where
  index := by
    intro u
    rw [h'.index, h.index]
    split
    · next hu =>
      subst hu
      simp only [Removal.freed, Aftermath.logged_index, Aftermath.counted_index,
        Aftermath.withContent_index, Aftermath.withRoster_index, Aftermath.withIndex_index,
        h.index_self]
      exact Index.erase_insert hnew _
    · rfl
  roster := by
    intro q
    rw [h'.roster, h.roster]
    split
    · next hq =>
      subst hq
      simp only [Removal.freed, Aftermath.logged_roster, Aftermath.counted_roster,
        Aftermath.withContent_roster, Aftermath.withRoster_roster, h.roster_self]
      exact Roster.remove_add hunlisted
    · rfl
  content := by
    intro b hb
    rw [h'.content]
    refine (Function.update_of_ne hb ..).trans ?_
    rw [Aftermath.withRoster_content, Aftermath.withIndex_content, Store.untouched_content,
      h.content]
    exact Function.update_of_ne hb ..
  emptied := by
    apply Content.emptied_iff.mpr
    rw [h'.content]
    exact Function.update_self ..

/-- What a free comes to by itself in any state where its locks are free, whatever the index and the
roster have to do with each other: it succeeds exactly when the table has the key and the registry
lists it, and then takes the key out of both and gives up the content, and changes nothing else but
its counter and the log; otherwise it is refused, and says in the log whether the table has the key.
So when an allocation under a key that was neither in the index nor in the roster is followed by a
free of what it gave, every index, every roster and all other content are as before; and whatever
happens from then on, until the number is drawn again from the table, every free of the key with any
registry of its session and every lookup of it ends with its not being found. -/
theorem free_undoes_allocate :
    (∀ supply (s : Service) (t : TableRef) (r : RegistryRef) (id : BufferId),
      s.store.lock? (.table t) = some .free → s.store.lock? (.registry r) = some .free →
      (∀ b, (s.store.indexOf t)[(⟨s.store.sessionOf r, id⟩ : Key)]? = some b →
        (s.store.rosterOf r).contains ⟨s.store.sessionOf r, id⟩ = true →
        s.store.lock? (.content b) = some .free) →
      s.Frees supply ⟨t, r, ⟨s.store.sessionOf r, id⟩⟩) ∧
    ∀ supply supply' (s s₁ : Service) (t : TableRef) (r : RegistryRef) (user kernel : UInt64)
      (g : Handle), s.store.lock? (.table t) = some .free →
      s.store.lock? (.registry r) = some .free →
      (s.store.indexOf t).contains ⟨s.store.sessionOf r, s.store.nextIdOf t⟩ = false →
      (s.store.rosterOf r).contains ⟨s.store.sessionOf r, s.store.nextIdOf t⟩ = false →
      s.Completes supply (.allocate t r user kernel) (.handle g) s₁ →
      g.key = ⟨s.store.sessionOf r, s.store.nextIdOf t⟩ ∧
      ∃ s₂, s₁.Completes supply' (.free t r g.key.buffer) .done s₂ ∧ s.Undone s₂ g ∧
        ∀ limits, Reachable limits s → ∀ h u, s₂.run? h = some u →
          g.key.buffer ∉ drawnFrom t (s₂.notes h) → u.LeadsNowhere s₂.calls.size t g.key := by
  refine ⟨fun supply s t r id hlt hlr hlb ↦ frees_of_free rfl hlt hlr hlb, ?_⟩
  intro supply supply' s s₁ t r user kernel g hlt hlr hnew hunlisted hc
  obtain ⟨rfl, hbecomes⟩ := becomes_of_handle hlt hlr hnew hc
  obtain ⟨ht, hlt⟩ := Store.has_of_lock? hlt
  obtain ⟨hr, hlr⟩ := Store.has_of_lock? hlr
  have hlock : (Allocation.granted ⟨t, r, s.store.sessionOf r, user, kernel⟩ s.store).lock =
    s.store.lockOf := rfl
  have hlb : s.store.lockOf (.content s.store.storages.size) = .free :=
    Store.lockOf_of_not_has (by simp [Store.has_content])
  have hin : (s₁.store.indexOf t)[(⟨s.store.sessionOf r, s.store.nextIdOf t⟩ : Key)]? =
      some s.store.storages.size := by
    rw [hbecomes.index_self]
    simp [Allocation.granted, Allocation.nextKey]
  have hlisted : (s₁.store.rosterOf r).contains ⟨s.store.sessionOf r, s.store.nextIdOf t⟩ =
      true := by
    rw [hbecomes.roster_self]
    simp [Allocation.granted, Allocation.nextKey, Roster.contains, Roster.add]
  have hfrees : s₁.Frees supply' ⟨t, r, ⟨s.store.sessionOf r, s.store.nextIdOf t⟩⟩ := by
    apply frees_of_free (hbecomes.sessionOf r).symm
    · exact hbecomes.lock?_free hlock (hbecomes.has_table.mpr ht) hlt
    · exact hbecomes.lock?_free hlock (hbecomes.has_registry.mpr hr) hlr
    · intro b hb _
      cases hin.symm.trans hb
      exact hbecomes.lock?_free hlock (hbecomes.has_content.mpr (Nat.lt_succ_self _)) hlb
  obtain ⟨b, s₂, hb, hdone, hfreed, hout, -⟩ :=
    hfrees.freed ⟨Index.contains_iff.mpr ⟨_, hin⟩, hlisted⟩
  cases hin.symm.trans hb
  have hundone := undone_of_becomes (a := ⟨t, r, s.store.sessionOf r, user, kernel⟩) hnew hunlisted
    hbecomes hfreed
  refine ⟨rfl, s₂, hdone, hundone, ?_⟩
  intro limits hs h u hrun hdrawn
  have hreach : Reachable limits s₂ := by
    obtain ⟨_, hrun₁, -⟩ := hc
    obtain ⟨_, hrun₂, -⟩ := hdone
    exact (hs.run hrun₁).run hrun₂
  have hfree : s₂.store.lockOf (.table t) = .free := by
    rw [hfreed.lock]
    exact (hbecomes.lock _).trans hlt
  exact ((hreach.absent hfree hout).run hrun hdrawn).leadsNowhere

/-- Another registry is attached for the session, and a buffer is allocated with it. -/
def allocatedBeside : History :=
  History.call (.attach ⟨⟨7⟩, .alone 1⟩) 4 1 ++ History.call (.allocate 0 1 4 4) 5 14

/-- The second buffer of a session is allocated and freed, and nothing is left of it; nor can it be
freed with another registry of the session, which has a third buffer by then. The first buffer can
still be freed. -/
theorem second_buffer_undone : ∃ s s₁ s₂ u u',
    (withTables [{}]).run? (History.allocated ⟨7⟩ 4 4) = some s ∧
    s.Completes .addressable (.allocate 0 0 8 8) (.handle ⟨⟨⟨7⟩, ⟨1⟩⟩, 1⟩) s₁ ∧
    s₁.Completes .addressable (.free 0 0 ⟨1⟩) .done s₂ ∧ s.Undone s₂ ⟨⟨⟨7⟩, ⟨1⟩⟩, 1⟩ ∧
    s₂.run? allocatedBeside = some u ∧
    u.Completes .addressable (.free 0 1 ⟨1⟩) (.refused (.notFound ⟨⟨7⟩, ⟨1⟩⟩)) u' ∧
    s.Frees .addressable ⟨0, 0, ⟨⟨7⟩, ⟨0⟩⟩⟩ := by
  have hrun : (((withTables [{}]).run? (History.allocated ⟨7⟩ 4 4)).bind fun s ↦
      (s.run? (History.call (.allocate 0 0 8 8) 2 14)).bind fun s₁ ↦
      (s₁.run? (History.call (.free 0 0 ⟨1⟩) 3 13)).bind fun s₂ ↦
      (s₂.run? allocatedBeside).map fun u ↦
        ([s.store.lock? (.table 0), s.store.lock? (.registry 0), s.store.lock? (.content 0),
            u.store.lock? (.table 0), u.store.lock? (.registry 1)],
          [s.store.sessionOf 0, u.store.sessionOf 1], [s.calls.size, s₁.calls.size],
          [s₁.outcome? 2, s₂.outcome? 3])) =
      some ([some .free, some .free, some .free, some .free, some .free], [⟨7⟩, ⟨7⟩], [2, 3],
        [some (.handle ⟨⟨⟨7⟩, ⟨1⟩⟩, 1⟩), some .done]) := by
    decide +kernel
  have hnew : ((withTables [{}]).run? (History.allocated ⟨7⟩ 4 4)).map (fun s ↦
      (s.store.nextIdOf 0, [0, 1].map fun n ↦ (s.store.indexOf 0)[(⟨⟨7⟩, ⟨n⟩⟩ : Key)]?,
        (s.store.rosterOf 0).contains ⟨⟨7⟩, ⟨1⟩⟩)) = some (⟨1⟩, [some 0, none], false) := by
    decide +kernel
  have hdrawn : (((withTables [{}]).run? (History.allocated ⟨7⟩ 4 4 ++
      History.call (.allocate 0 0 8 8) 2 14 ++ History.call (.free 0 0 ⟨1⟩) 3 13)).map fun s₂ ↦
        drawnFrom 0 (s₂.notes allocatedBeside)) = some [⟨2⟩] := by
    decide +kernel
  obtain ⟨s, hs, hrun⟩ := Option.bind_eq_some_iff.mp hrun
  obtain ⟨s₁, hs₁, hrun⟩ := Option.bind_eq_some_iff.mp hrun
  obtain ⟨s₂, hs₂, hrun⟩ := Option.bind_eq_some_iff.mp hrun
  obtain ⟨u, hu, hrun⟩ := Option.map_eq_some_iff.mp hrun
  rw [hs, Option.map_some, Option.some.injEq] at hnew
  rw [run?_append, run?_append, hs, Option.bind_some, hs₁, Option.bind_some, hs₂, Option.map_some,
    Option.some.injEq] at hdrawn
  simp only [Prod.mk.injEq, List.map_cons, List.map_nil, List.cons.injEq, and_true] at hrun hnew
  obtain ⟨⟨hlt, hlr, hlb, hlt', hlr'⟩, ⟨hsession, hsession'⟩, ⟨hsize, hsize₁⟩, ho₁, ho₂⟩ := hrun
  obtain ⟨hnext, ⟨hfirst, hsecond⟩, hlisted⟩ := hnew
  have hc : s.Completes .addressable (.allocate 0 0 8 8) (.handle ⟨⟨⟨7⟩, ⟨1⟩⟩, 1⟩) s₁ :=
    ⟨14, by rw [hsize]; exact hs₁, by rw [hsize]; exact ho₁⟩
  have hdone : s₁.Completes .addressable (.free 0 0 ⟨1⟩) .done s₂ :=
    ⟨13, by rw [hsize₁]; exact hs₂, by rw [hsize₁]; exact ho₂⟩
  obtain ⟨-, s₂', hdone', hundone, hstays⟩ := free_undoes_allocate.2 .addressable .addressable s s₁
    0 0 8 8 _ hlt hlr (by rw [hsession, hnext]; exact Index.not_contains_iff.mpr hsecond)
    (by rw [hsession, hnext]; exact hlisted) hc
  obtain ⟨-, rfl⟩ := hdone'.unique hdone
  have hnowhere := hstays [{}] ⟨_, hs⟩ _ u hu (by rw [hdrawn]; decide)
  obtain ⟨u', hrefused⟩ := hnowhere.free .addressable 1 hlt' hlr' hsession'
  have hfrees := free_undoes_allocate.1 .addressable s 0 0 ⟨0⟩ hlt hlr (by
    intro b hb _
    rw [hsession, hfirst] at hb
    cases hb
    exact hlb)
  rw [hsession] at hfrees
  exact ⟨s, s₁, s₂', u, u', hs, hc, hdone, hundone, hu, hrefused, hfrees⟩

end Service

end SessionBuffers
