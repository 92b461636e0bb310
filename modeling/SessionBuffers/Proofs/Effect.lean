import SessionBuffers.Proofs.View

/-!
# What a step does

For each kind of step, when it can be taken, where it goes on and what it leaves behind
(`run_acquire`, `run_insert` and so on), in terms of the views of a store. `changes_of_run` gathers
what any step does to every view, so later proofs need not open the arrays of a store.
-/

namespace SessionBuffers

namespace Instr

variable {σ : Type}

/-- What a step makes of the index of a table. -/
def onIndex (t : TableRef) (index : Index) : Instr σ → Index
  | insert u key b _ _ =>
    if u = t then (if index.contains key then index else index.insert key b) else index
  | erase u key _ => if u = t then index.erase key else index
  | _ => index

/-- What a step makes of the number a table hands out next. -/
def onNextId (t : TableRef) (id : BufferId) : Instr σ → BufferId
  | draw u _ => if u = t then ⟨id.number + 1⟩ else id
  | _ => id

/-- What a step makes of the roster of a registry. -/
def onRoster (r : RegistryRef) (roster : Roster) : Instr σ → Roster
  | add q key _ => if q = r then roster.add key else roster
  | remove q key _ => if q = r then roster.remove key else roster
  | drain q _ => if q = r then roster.drained else roster
  | close q _ => if q = r then roster.close else roster
  | _ => roster

/-- What a step makes of content that exists already. -/
def onContent (b : StorageRef) (content : Content) : Instr σ → Content
  | dispose c _ => if c = b then .gone else content
  | _ => content

/-- What a step of a call makes of a lock. -/
def onLock (who : CallRef) (name : LockName) (l : Lock) : Instr σ → Lock
  | acquire other mode _ | tryAcquire other mode _ _ =>
    if other = name then (l.acquire? who mode).getD l else l
  | release other _ => if other = name then l.release who else l
  | _ => l

/-- What a step makes of the sessions. -/
def onSessions (sessions : Array Session) : Instr σ → Array Session
  | .open t r _ => sessions.push { table := t, registry := r }
  | finish c _ _ => sessions.modify c fun session ↦ { session with ended := true }
  | _ => sessions

/-- What a step adds to a counter of a table. -/
def adds (t : TableRef) (which : Counter) : Instr σ → UInt64
  | count u other amount _ => if u = t ∧ other = which then amount else 0
  | _ => 0

/-- What a step adds to the log. -/
def logs : Instr σ → List Event
  | log event _ => [event]
  | _ => []

/-- Whether a step changes nothing but locks, sessions, counters and the log. -/
def isStill : Instr σ → Bool
  | consult _ _ | reserve _ _ _ _ _ | .open _ _ _ | finish _ _ _ | acquire _ _ _
  | tryAcquire _ _ _ _ | release _ _ | readIndex _ _ | readRoster _ _ | readContent _ _
  | count _ _ _ _ | log _ _ => true
  | _ => false

/-- Whether a property holds wherever a step may go on. -/
def Always (P : σ → Prop) : Instr σ → Prop
  | consult _ next => ∀ limits, P (next limits)
  | provide _ _ given refused => (∀ b, P (given b)) ∧ P refused
  | enroll _ _ given refused => (∀ r, P (given r)) ∧ P refused
  | reserve _ _ _ given refused => P given ∧ P refused
  | .open _ _ next => ∀ c, P (next c)
  | finish _ first again => P first ∧ P again
  | acquire _ _ next | release _ next | erase _ _ next | add _ _ next | dispose _ next
  | count _ _ _ next | log _ next => P next
  | tryAcquire _ _ taken busy => P taken ∧ P busy
  | draw _ next => ∀ id, P (next id)
  | insert _ _ _ fresh present => P fresh ∧ P present
  | readIndex _ next => ∀ index, P (next index)
  | readRoster _ next => ∀ roster, P (next roster)
  | remove _ _ next | close _ next => ∀ b, P (next b)
  | drain _ next => ∀ keys, P (next keys)
  | readContent _ next => ∀ content, P (next content)

variable {supply : Supply} {who : CallRef} {s s' : Store} {x : σ} {instr : Instr σ}

/-! ### What a step does -/

/-- Renaming positions does not change what a step does. -/
theorem run_map {τ : Type} (f : σ → τ) (supply : Supply) (who : CallRef) (s : Store)
    (instr : Instr σ) :
    (instr.map f).run supply who s = (instr.run supply who s).map fun p ↦ (f p.1, p.2) := by
  cases instr with
  | provide user kernel given refused =>
    simp only [run, map]
    split <;> rfl
  | enroll session capacity given refused =>
    simp only [run, map]
    split <;> rfl
  | finish c first again =>
    simp only [run, map]
    cases s.sessions[c]? with
    | none => rfl
    | some session =>
      simp only [Option.bind_eq_bind, Option.bind_some, Option.pure_def, Option.map_some]
      split <;> rfl
  | tryAcquire name mode taken busy =>
    simp only [run, map]
    cases s.lock? name with
    | none => rfl
    | some l => cases hl : l.acquire? who mode <;> simp [hl]
  | insert t key b fresh present =>
    simp only [run, map]
    cases s.tables[t]? with
    | none => rfl
    | some table =>
      simp only [Option.bind_eq_bind, Option.bind_some, Option.pure_def, Option.map_some]
      split <;> rfl
  | acquire name mode next =>
    simp only [run, map]
    cases s.acquire? name who mode <;> rfl
  | release name next =>
    simp only [run, map]
    cases s.release? name who <;> rfl
  | consult t next | draw t next | erase t key next | readIndex t next
  | count t which amount next =>
    simp only [run, map]
    cases s.tables[t]? <;> rfl
  | reserve r user kernel given refused =>
    simp only [run, map]
    cases s.registries[r]? with
    | none => rfl
    | some registry =>
      simp only [Option.bind_eq_bind, Option.bind_some, Option.pure_def, Option.map_some]
      split <;> rfl
  | readRoster r next | add r key next | remove r key next | drain r next | close r next =>
    simp only [run, map]
    cases s.registries[r]? <;> rfl
  | readContent b next | dispose b next =>
    simp only [run, map]
    cases s.storages[b]? <;> rfl
  | «open» t r next => rfl
  | log event next => rfl

/-- A step with its positions renamed goes on at a renamed position. -/
theorem run_map_eq_some {τ : Type} {f : σ → τ} {y : τ} :
    (instr.map f).run supply who s = some (y, s') ↔
      ∃ x, instr.run supply who s = some (x, s') ∧ f x = y := by
  rw [run_map, Option.map_eq_some_iff]
  constructor
  · rintro ⟨⟨x, u⟩, hr, h⟩
    cases h
    exact ⟨x, hr, rfl⟩
  · rintro ⟨x, hr, rfl⟩
    exact ⟨(x, s'), hr, rfl⟩

/-- What reads or changes one table goes ahead exactly when the table exists. -/
private theorem ofTable {t : TableRef} {next : Table → σ} {after : Table → Store} {y : σ}
    {u : Store} (h : ∀ table, s.tables[t]? = some table → next table = y ∧ after table = u) :
    (s.tables[t]?.bind fun table ↦ some (next table, after table)) = some (x, s') ↔
      s.Has (.table t) ∧ x = y ∧ s' = u := by
  rw [Store.has_table_iff]
  cases ht : s.tables[t]? with
  | none => simp
  | some table => simp [h table ht, eq_comm]

/-- What reads or changes one registry goes ahead exactly when the registry exists. -/
private theorem ofRegistry {r : RegistryRef} {next : Registry → σ} {after : Registry → Store}
    {y : σ} {u : Store}
    (h : ∀ registry, s.registries[r]? = some registry → next registry = y ∧ after registry = u) :
    (s.registries[r]?.bind fun registry ↦ some (next registry, after registry)) = some (x, s') ↔
      s.Has (.registry r) ∧ x = y ∧ s' = u := by
  rw [Store.has_registry_iff]
  cases hr : s.registries[r]? with
  | none => simp
  | some registry => simp [h registry hr, eq_comm]

/-- What reads or changes one storage goes ahead exactly when the storage exists. -/
private theorem ofStorage {b : StorageRef} {next : Storage → σ} {after : Storage → Store} {y : σ}
    {u : Store}
    (h : ∀ storage, s.storages[b]? = some storage → next storage = y ∧ after storage = u) :
    (s.storages[b]?.bind fun storage ↦ some (next storage, after storage)) = some (x, s') ↔
      s.Has (.content b) ∧ x = y ∧ s' = u := by
  rw [Store.has_content_iff]
  cases hb : s.storages[b]? with
  | none => simp
  | some storage => simp [h storage hb, eq_comm]

theorem run_consult {t : TableRef} {next : Limits → σ} :
    (consult t next).run supply who s = some (x, s') ↔
      s.Has (.table t) ∧ x = next (s.limitsOf t) ∧ s' = s :=
  ofTable fun _ ht ↦ ⟨by rw [Store.limitsOf_eq ht], rfl⟩

theorem run_provide {user kernel : UInt64} {given : StorageRef → σ} {refused : σ} :
    (provide user kernel given refused).run supply who s = some (x, s') ↔
      supply.regions user kernel = true ∧ x = given s.storages.size ∧
        s' = { s with storages := s.storages.push { content := .zeroed user kernel } } ∨
      supply.regions user kernel = false ∧ x = refused ∧ s' = s := by
  cases h : supply.regions user kernel <;> simp [run, h, eq_comm]

theorem run_enroll {session : SessionId} {capacity : UInt64} {given : RegistryRef → σ}
    {refused : σ} :
    (enroll session capacity given refused).run supply who s = some (x, s') ↔
      supply.roster capacity = true ∧ x = given s.registries.size ∧
        s' = { s with registries := s.registries.push { session } } ∨
      supply.roster capacity = false ∧ x = refused ∧ s' = s := by
  cases h : supply.roster capacity <;> simp [run, h, eq_comm]

theorem run_reserve {r : RegistryRef} {user kernel : UInt64} {given refused : σ} :
    (reserve r user kernel given refused).run supply who s = some (x, s') ↔
      s.Has (.registry r) ∧ (supply.slot user kernel = true ∧ x = given ∨
        supply.slot user kernel = false ∧ x = refused) ∧ s' = s := by
  refine (ofRegistry fun _ _ ↦ ⟨rfl, rfl⟩).trans ?_
  cases supply.slot user kernel <;> simp

theorem run_open {t : TableRef} {r : RegistryRef} {next : SessionRef → σ} :
    (Instr.open t r next).run supply who s = some (x, s') ↔
      x = next s.sessions.size ∧
        s' = { s with sessions := s.sessions.push { table := t, registry := r } } := by
  simp [run, eq_comm]

theorem run_finish {c : SessionRef} {first again : σ} :
    (finish c first again).run supply who s = some (x, s') ↔
      ∃ session, s.sessions[c]? = some session ∧
        (session.ended = true ∧ x = again ∧ s' = s ∨
          session.ended = false ∧ x = first ∧ s' = s.endSession c) := by
  simp only [run, Option.bind_eq_bind, Option.bind_eq_some_iff, Option.pure_def, Option.some.injEq]
  refine exists_congr fun session ↦ and_congr_right fun _ ↦ ?_
  cases session.ended <;> simp [eq_comm]

theorem run_acquire {name : LockName} {mode : Mode} {next : σ} :
    (acquire name mode next).run supply who s = some (x, s') ↔
      s.Has name ∧ ∃ l, (s.lockOf name).acquire? who mode = some l ∧ x = next ∧
        s' = s.setLock name l := by
  simp only [run, Store.acquire?, Option.bind_eq_bind, Option.bind_eq_some_iff, Option.pure_def,
    Option.some.injEq, Prod.mk.injEq]
  constructor
  · rintro ⟨_, ⟨l, hl, m, hm, rfl⟩, rfl, rfl⟩
    exact ⟨by simp [Store.Has, hl], m, by rw [Store.lock?_eq_some hl, hm], rfl, rfl⟩
  · rintro ⟨hn, m, hm, rfl, rfl⟩
    exact ⟨_, ⟨_, Store.lock?_of_has hn, m, hm, rfl⟩, rfl, rfl⟩

theorem run_tryAcquire {name : LockName} {mode : Mode} {taken busy : σ} :
    (tryAcquire name mode taken busy).run supply who s = some (x, s') ↔
      s.Has name ∧
        ((∃ l, (s.lockOf name).acquire? who mode = some l ∧ x = taken ∧ s' = s.setLock name l) ∨
          (s.lockOf name).acquire? who mode = none ∧ x = busy ∧ s' = s) := by
  simp only [run, Option.bind_eq_bind, Option.bind_eq_some_iff, Option.pure_def, Option.some.injEq]
  constructor
  · rintro ⟨l, hl, hr⟩
    refine ⟨by simp [Store.Has, hl], ?_⟩
    rw [Store.lock?_eq_some hl]
    split at hr
    · next m hm =>
      cases hr
      exact .inl ⟨m, hm, rfl, rfl⟩
    · next hm =>
      cases hr
      exact .inr ⟨hm, rfl, rfl⟩
  · rintro ⟨hn, ⟨m, hm, rfl, rfl⟩ | ⟨hm, rfl, rfl⟩⟩
    · exact ⟨_, Store.lock?_of_has hn, by rw [hm]⟩
    · exact ⟨_, Store.lock?_of_has hn, by rw [hm]⟩

theorem run_release {name : LockName} {next : σ} :
    (release name next).run supply who s = some (x, s') ↔
      s.Has name ∧ x = next ∧ s' = s.setLock name ((s.lockOf name).release who) := by
  simp only [run, Store.release?, Option.bind_eq_bind, Option.bind_eq_some_iff, Option.pure_def,
    Option.some.injEq, Prod.mk.injEq]
  constructor
  · rintro ⟨_, ⟨l, hl, rfl⟩, rfl, rfl⟩
    exact ⟨by simp [Store.Has, hl], rfl, by rw [Store.lock?_eq_some hl]⟩
  · rintro ⟨hn, rfl, rfl⟩
    exact ⟨_, ⟨_, Store.lock?_of_has hn, rfl⟩, rfl, rfl⟩

theorem run_draw {t : TableRef} {next : BufferId → σ} :
    (draw t next).run supply who s = some (x, s') ↔
      s.Has (.table t) ∧ x = next (s.nextIdOf t) ∧
        s' = s.setNextId t ⟨(s.nextIdOf t).number + 1⟩ :=
  ofTable fun _ ht ↦ by
    rw [Store.nextIdOf_eq ht]
    exact ⟨rfl, rfl⟩

theorem run_insert {t : TableRef} {key : Key} {b : StorageRef} {fresh present : σ} :
    (insert t key b fresh present).run supply who s = some (x, s') ↔
      s.Has (.table t) ∧
        ((s.indexOf t).contains key = true ∧ x = present ∧ s' = s ∨
          (s.indexOf t).contains key = false ∧ x = fresh ∧
            s' = s.modifyTable t fun table ↦ { table with index := table.index.insert key b }) := by
  simp only [run, Option.bind_eq_bind, Option.bind_eq_some_iff, Option.pure_def, Option.some.injEq,
    Store.has_table_iff, ← exists_and_right]
  refine exists_congr fun table ↦ and_congr_right fun ht ↦ ?_
  rw [Store.indexOf_eq ht]
  cases table.index.contains key <;> simp [eq_comm]

theorem run_erase {t : TableRef} {key : Key} {next : σ} :
    (erase t key next).run supply who s = some (x, s') ↔
      s.Has (.table t) ∧ x = next ∧
        s' = s.modifyTable t fun table ↦ { table with index := table.index.erase key } :=
  ofTable fun _ _ ↦ ⟨rfl, rfl⟩

theorem run_readIndex {t : TableRef} {next : Index → σ} :
    (readIndex t next).run supply who s = some (x, s') ↔
      s.Has (.table t) ∧ x = next (s.indexOf t) ∧ s' = s :=
  ofTable fun _ ht ↦ ⟨by rw [Store.indexOf_eq ht], rfl⟩

theorem run_readRoster {r : RegistryRef} {next : Roster → σ} :
    (readRoster r next).run supply who s = some (x, s') ↔
      s.Has (.registry r) ∧ x = next (s.rosterOf r) ∧ s' = s :=
  ofRegistry fun _ hr ↦ ⟨by rw [Store.rosterOf_eq hr], rfl⟩

theorem run_add {r : RegistryRef} {key : Key} {next : σ} :
    (add r key next).run supply who s = some (x, s') ↔
      s.Has (.registry r) ∧ x = next ∧
        s' = s.modifyRegistry r fun registry ↦
          { registry with roster := registry.roster.add key } :=
  ofRegistry fun _ _ ↦ ⟨rfl, rfl⟩

theorem run_remove {r : RegistryRef} {key : Key} {next : Bool → σ} :
    (remove r key next).run supply who s = some (x, s') ↔
      s.Has (.registry r) ∧ x = next ((s.rosterOf r).contains key) ∧
        s' = s.modifyRegistry r fun registry ↦
          { registry with roster := registry.roster.remove key } :=
  ofRegistry fun _ hr ↦ ⟨by rw [Store.rosterOf_eq hr], rfl⟩

theorem run_drain {r : RegistryRef} {next : List Key → σ} :
    (drain r next).run supply who s = some (x, s') ↔
      s.Has (.registry r) ∧ x = next (s.rosterOf r).toList ∧
        s' = s.modifyRegistry r fun registry ↦
          { registry with roster := registry.roster.drained } :=
  ofRegistry fun _ hr ↦ ⟨by rw [Store.rosterOf_eq hr], rfl⟩

theorem run_close {r : RegistryRef} {next : Bool → σ} :
    (close r next).run supply who s = some (x, s') ↔
      s.Has (.registry r) ∧ x = next (!(s.rosterOf r).closed) ∧
        s' = s.modifyRegistry r fun registry ↦
          { registry with roster := registry.roster.close } :=
  ofRegistry fun _ hr ↦ ⟨by rw [Store.rosterOf_eq hr], rfl⟩

theorem run_readContent {b : StorageRef} {next : Content → σ} :
    (readContent b next).run supply who s = some (x, s') ↔
      s.Has (.content b) ∧ x = next (s.contentOf b) ∧ s' = s :=
  ofStorage fun _ hb ↦ ⟨by rw [Store.contentOf_eq hb], rfl⟩

theorem run_dispose {b : StorageRef} {next : σ} :
    (dispose b next).run supply who s = some (x, s') ↔
      s.Has (.content b) ∧ x = next ∧
        s' = s.modifyStorage b fun storage ↦ { storage with content := .gone } :=
  ofStorage fun _ _ ↦ ⟨rfl, rfl⟩

theorem run_count {t : TableRef} {which : Counter} {amount : UInt64} {next : σ} :
    (count t which amount next).run supply who s = some (x, s') ↔
      s.Has (.table t) ∧ x = next ∧ s' = s.count t which amount :=
  ofTable fun _ _ ↦ ⟨rfl, rfl⟩

theorem run_log {event : Event} {next : σ} :
    (log event next).run supply who s = some (x, s') ↔
      x = next ∧ s' = { s with log := s.log.push (who, event) } := by
  simp [run, eq_comm]

/-- Where a step goes on is one of the positions at which it may. -/
theorem Always.of_run {P : σ → Prop} (h : instr.Always P)
    (hr : instr.run supply who s = some (x, s')) : P x := by
  cases instr with
  | consult t next => exact (run_consult.mp hr).2.1 ▸ h _
  | provide user kernel given refused =>
    obtain ⟨-, rfl, -⟩ | ⟨-, rfl, -⟩ := run_provide.mp hr
    · exact h.1 _
    · exact h.2
  | enroll session capacity given refused =>
    obtain ⟨-, rfl, -⟩ | ⟨-, rfl, -⟩ := run_enroll.mp hr
    · exact h.1 _
    · exact h.2
  | reserve r user kernel given refused =>
    obtain ⟨-, ⟨-, rfl⟩ | ⟨-, rfl⟩, -⟩ := run_reserve.mp hr
    · exact h.1
    · exact h.2
  | «open» t r next => exact (run_open.mp hr).1 ▸ h _
  | finish c first again =>
    obtain ⟨_, -, ⟨-, rfl, -⟩ | ⟨-, rfl, -⟩⟩ := run_finish.mp hr
    · exact h.2
    · exact h.1
  | acquire name mode next =>
    obtain ⟨-, _, -, rfl, -⟩ := run_acquire.mp hr
    exact h
  | tryAcquire name mode taken busy =>
    obtain ⟨-, ⟨_, -, rfl, -⟩ | ⟨-, rfl, -⟩⟩ := run_tryAcquire.mp hr
    · exact h.1
    · exact h.2
  | release name next => exact (run_release.mp hr).2.1 ▸ h
  | draw t next => exact (run_draw.mp hr).2.1 ▸ h _
  | insert t key b fresh present =>
    obtain ⟨-, ⟨-, rfl, -⟩ | ⟨-, rfl, -⟩⟩ := run_insert.mp hr
    · exact h.2
    · exact h.1
  | erase t key next => exact (run_erase.mp hr).2.1 ▸ h
  | readIndex t next => exact (run_readIndex.mp hr).2.1 ▸ h _
  | readRoster r next => exact (run_readRoster.mp hr).2.1 ▸ h _
  | add r key next => exact (run_add.mp hr).2.1 ▸ h
  | remove r key next => exact (run_remove.mp hr).2.1 ▸ h _
  | drain r next => exact (run_drain.mp hr).2.1 ▸ h _
  | close r next => exact (run_close.mp hr).2.1 ▸ h _
  | readContent b next => exact (run_readContent.mp hr).2.1 ▸ h _
  | dispose b next => exact (run_dispose.mp hr).2.1 ▸ h
  | count t which amount next => exact (run_count.mp hr).2.1 ▸ h
  | log event next => exact (run_log.mp hr).1 ▸ h

/-! ### What a step changes -/

/-- How a step of a call changes the views of a store. Nothing that exists goes away, and neither
limits nor sessions of registries ever change. -/
structure Changes (instr : Instr σ) (who : CallRef) (s s' : Store) : Prop where
  limits : ∀ t, s'.limitsOf t = s.limitsOf t
  session : ∀ r, s.Has (.registry r) → s'.sessionOf r = s.sessionOf r
  has : ∀ name, s.Has name → s'.Has name
  index : ∀ t, s'.indexOf t = instr.onIndex t (s.indexOf t)
  nextId : ∀ t, s'.nextIdOf t = instr.onNextId t (s.nextIdOf t)
  roster : ∀ r, s'.rosterOf r = instr.onRoster r (s.rosterOf r)
  content : ∀ b, s.Has (.content b) → s'.contentOf b = instr.onContent b (s.contentOf b)
  lock : ∀ name, s'.lockOf name = instr.onLock who name (s.lockOf name)

/-- A still step makes nothing of indexes, numbers, rosters and contents. -/
theorem kept_of_isStill (h : instr.isStill = true) :
    (∀ t index, instr.onIndex t index = index) ∧ (∀ t id, instr.onNextId t id = id) ∧
      (∀ r roster, instr.onRoster r roster = roster) ∧
      ∀ b content, instr.onContent b content = content := by
  cases instr <;> first
    | exact ⟨fun _ _ ↦ rfl, fun _ _ ↦ rfl, fun _ _ ↦ rfl, fun _ _ ↦ rfl⟩
    | cases h

/-- A key comes into a roster only by being added. -/
theorem contains_onRoster {r : RegistryRef} {roster : Roster} {k : Key}
    (h : (instr.onRoster r roster).contains k = true) :
    roster.contains k = true ∨ ∃ next, instr = .add r k next := by
  cases instr with
  | add q key next =>
    simp only [onRoster] at h
    split at h
    · next hq =>
      obtain rfl | hk := Roster.contains_add.mp h
      · exact .inr ⟨next, by rw [hq]⟩
      · exact .inl hk
    · exact .inl h
  | remove q key next =>
    simp only [onRoster] at h
    split at h
    · exact .inl (Roster.contains_remove.mp h).2
    · exact .inl h
  | drain q next =>
    simp only [onRoster] at h
    split at h
    · exact absurd h (Roster.not_contains_drained _ k)
    · exact .inl h
  | close q next =>
    simp only [onRoster] at h
    split at h <;> exact .inl h
  | _ => exact .inl h

/-- No change of a table, registry or storage. -/
private theorem changes_none (h : instr.isStill = true) (ht : s'.tables = s.tables)
    (hg : s'.registries = s.registries) (hs : s'.storages = s.storages)
    (hl : ∀ name, instr.onLock who name (s.lockOf name) = s.lockOf name) :
    instr.Changes who s s' := by
  obtain ⟨hi, hd, hr, hc⟩ := kept_of_isStill h
  have hk (name : LockName) : s'.lock? name = s.lock? name := by
    cases name <;> simp only [Store.lock?, ht, hg, hs]
  refine ⟨fun t ↦ ?_, fun r _ ↦ ?_, fun name h ↦ ?_, fun t ↦ ?_, fun t ↦ ?_, fun r ↦ ?_,
    fun b _ ↦ ?_, fun name ↦ ?_⟩
  · simp only [Store.limitsOf, ht]
  · simp only [Store.sessionOf, hg]
  · rwa [Store.Has, hk]
  · rw [hi, Store.indexOf, ht, Store.indexOf]
  · rw [hd, Store.nextIdOf, ht, Store.nextIdOf]
  · rw [hr, Store.rosterOf, hg, Store.rosterOf]
  · rw [hc, Store.contentOf, hs, Store.contentOf]
  · rw [hl, Store.lockOf, hk, Store.lockOf]

/-- A change of a lock, as the step says. -/
private theorem changes_setLock {name : LockName} {l : Lock} (h : instr.isStill = true)
    (hn : s.Has name) (hl : instr.onLock who name (s.lockOf name) = l)
    (hother : ∀ other l, name ≠ other → instr.onLock who other l = l) :
    instr.Changes who s (s.setLock name l) := by
  obtain ⟨hi, hd, hr, hc⟩ := kept_of_isStill h
  exact
    { limits := fun t ↦ by simp
      session := fun r _ ↦ by simp
      has := fun other h ↦ by simpa using h
      index := fun t ↦ by simp [hi]
      nextId := fun t ↦ by simp [hd]
      roster := fun r ↦ by simp [hr]
      content := fun b _ ↦ by simp [hc]
      lock := fun other ↦ by
        rw [Store.lockOf_setLock hn]
        by_cases he : name = other
        · rw [if_pos he, ← he, hl]
        · rw [if_neg he, hother other _ he] }

/-- A change of a table that keeps its limits and its lock. -/
private theorem changes_modifyTable {t : TableRef} {f : Table → Table}
    (hm : ∀ table, (f table).limits = table.limits) (hk : ∀ table, (f table).lock = table.lock)
    (hi : ∀ u, (s.modifyTable t f).indexOf u = instr.onIndex u (s.indexOf u))
    (hd : ∀ u, (s.modifyTable t f).nextIdOf u = instr.onNextId u (s.nextIdOf u))
    (hr : ∀ r roster, instr.onRoster r roster = roster)
    (hc : ∀ b content, instr.onContent b content = content)
    (hl : ∀ name l, instr.onLock who name l = l) : instr.Changes who s (s.modifyTable t f) where
  limits u := Store.limitsOf_modifyTable f hm u
  session _ _ := rfl
  has name h := (Store.has_modifyTable f hk name).mpr h
  index := hi
  nextId := hd
  roster r := (hr r _).symm
  content b _ := (hc b _).symm
  lock name := (Store.lockOf_modifyTable f hk name).trans (hl name _).symm

/-- A change of the index of a table. -/
private theorem changes_index {t : TableRef} {f : Index → Index} (ht : s.Has (.table t))
    (hf : ∀ u, instr.onIndex u (s.indexOf u) = if t = u then f (s.indexOf u) else s.indexOf u)
    (hd : ∀ t id, instr.onNextId t id = id) (hr : ∀ r roster, instr.onRoster r roster = roster)
    (hc : ∀ b content, instr.onContent b content = content)
    (hl : ∀ name l, instr.onLock who name l = l) :
    instr.Changes who s
      (s.modifyTable t fun table ↦ { table with index := f table.index }) := by
  obtain ⟨table, ht⟩ := Store.has_table_iff.mp ht
  refine changes_modifyTable (by intro _; rfl) (by intro _; rfl) (fun u ↦ ?_) (fun u ↦ ?_) hr hc hl
  · rw [Store.indexOf_modifyTable ht, hf]
    split
    · next he => rw [← he, Store.indexOf_eq ht]
    · rfl
  · rw [hd]
    exact Store.nextIdOf_modifyTable_of _ (by intro _; rfl) u

/-- A change of the roster of a registry. -/
private theorem changes_modifyRegistry {r : RegistryRef} {f : Roster → Roster}
    (hr : s.Has (.registry r)) (hf : ∀ q roster, instr.onRoster q roster =
      if r = q then f roster else roster)
    (hi : ∀ t index, instr.onIndex t index = index) (hd : ∀ t id, instr.onNextId t id = id)
    (hc : ∀ b content, instr.onContent b content = content)
    (hl : ∀ name l, instr.onLock who name l = l) :
    instr.Changes who s
      (s.modifyRegistry r fun registry ↦ { registry with roster := f registry.roster }) where
  limits t := rfl
  session q _ := Store.sessionOf_modifyRegistry _ (by intro _; rfl) q
  has name h := (Store.has_modifyRegistry _ (by intro _; rfl) name).mpr h
  index t := (hi t _).symm
  nextId t := (hd t _).symm
  roster q := by
    obtain ⟨registry, hr⟩ := Store.has_registry_iff.mp hr
    rw [Store.rosterOf_modifyRegistry hr, hf]
    split
    · next he => rw [← he, Store.rosterOf_eq hr]
    · rfl
  content b _ := (hc b _).symm
  lock name := (Store.lockOf_modifyRegistry _ (by intro _; rfl) name).trans (hl name _).symm

/-- A step changes the views of a store as it says. -/
theorem changes_of_run (hr : instr.run supply who s = some (x, s')) :
    instr.Changes who s s' := by
  cases instr with
  | acquire name mode next =>
    obtain ⟨hn, l, hl, -, rfl⟩ := run_acquire.mp hr
    exact changes_setLock rfl hn (by simp [onLock, hl]) fun _ _ he ↦ if_neg he
  | tryAcquire name mode taken busy =>
    obtain ⟨hn, ⟨l, hl, -, rfl⟩ | ⟨hl, -, rfl⟩⟩ := run_tryAcquire.mp hr
    · exact changes_setLock rfl hn (by simp [onLock, hl]) fun _ _ he ↦ if_neg he
    · refine changes_none rfl rfl rfl rfl fun other ↦ ?_
      by_cases he : name = other
      · subst he
        simp [onLock, hl]
      · simp [onLock, he]
  | release name next =>
    obtain ⟨hn, -, rfl⟩ := run_release.mp hr
    exact changes_setLock rfl hn (by simp [onLock]) fun _ _ he ↦ if_neg he
  | insert t key b fresh present =>
    obtain ⟨ht, ⟨hc, -, rfl⟩ | ⟨hc, -, rfl⟩⟩ := run_insert.mp hr
    · refine ⟨fun _ ↦ rfl, fun _ _ ↦ rfl, fun _ ↦ id, fun u ↦ ?_, fun _ ↦ rfl, fun _ ↦ rfl,
        fun _ _ ↦ rfl, fun _ ↦ rfl⟩
      by_cases he : t = u
      · subst he
        simp [onIndex, hc]
      · simp [onIndex, he]
    · refine changes_index (f := (·.insert key b)) ht (fun u ↦ ?_) (fun _ _ ↦ rfl) (fun _ _ ↦ rfl)
        (fun _ _ ↦ rfl) (fun _ _ ↦ rfl)
      by_cases he : t = u
      · subst he
        simp [onIndex, hc]
      · simp [onIndex, he]
  | erase t key next =>
    obtain ⟨ht, -, rfl⟩ := run_erase.mp hr
    exact changes_index (f := (·.erase key)) ht (fun _ ↦ rfl) (fun _ _ ↦ rfl) (fun _ _ ↦ rfl)
      (fun _ _ ↦ rfl) (fun _ _ ↦ rfl)
  | draw t next =>
    obtain ⟨ht, -, rfl⟩ := run_draw.mp hr
    obtain ⟨table, ht⟩ := Store.has_table_iff.mp ht
    refine changes_modifyTable (by intro _; rfl) (by intro _; rfl)
      (fun u ↦ Store.indexOf_modifyTable_of _ (by intro _; rfl) u) (fun u ↦ ?_) (fun _ _ ↦ rfl)
      (fun _ _ ↦ rfl) (fun _ _ ↦ rfl)
    rw [Store.nextIdOf_modifyTable ht]
    by_cases he : t = u
    · subst he
      simp [onNextId]
    · simp [onNextId, he]
  | count t which amount next =>
    obtain ⟨-, -, rfl⟩ := run_count.mp hr
    exact changes_modifyTable (by intro _; rfl) (by intro _; rfl)
      (fun u ↦ Store.indexOf_modifyTable_of _ (by intro _; rfl) u)
      (fun u ↦ Store.nextIdOf_modifyTable_of _ (by intro _; rfl) u) (fun _ _ ↦ rfl) (fun _ _ ↦ rfl)
      (fun _ _ ↦ rfl)
  | add r key next =>
    obtain ⟨hq, -, rfl⟩ := run_add.mp hr
    exact changes_modifyRegistry (f := (·.add key)) hq (fun _ _ ↦ rfl) (fun _ _ ↦ rfl)
      (fun _ _ ↦ rfl) (fun _ _ ↦ rfl) (fun _ _ ↦ rfl)
  | remove r key next =>
    obtain ⟨hq, -, rfl⟩ := run_remove.mp hr
    exact changes_modifyRegistry (f := (·.remove key)) hq (fun _ _ ↦ rfl) (fun _ _ ↦ rfl)
      (fun _ _ ↦ rfl) (fun _ _ ↦ rfl) (fun _ _ ↦ rfl)
  | drain r next =>
    obtain ⟨hq, -, rfl⟩ := run_drain.mp hr
    exact changes_modifyRegistry (f := Roster.drained) hq (fun _ _ ↦ rfl) (fun _ _ ↦ rfl)
      (fun _ _ ↦ rfl) (fun _ _ ↦ rfl) (fun _ _ ↦ rfl)
  | close r next =>
    obtain ⟨hq, -, rfl⟩ := run_close.mp hr
    exact changes_modifyRegistry (f := Roster.close) hq (fun _ _ ↦ rfl) (fun _ _ ↦ rfl)
      (fun _ _ ↦ rfl) (fun _ _ ↦ rfl) (fun _ _ ↦ rfl)
  | dispose b next =>
    obtain ⟨hb, -, rfl⟩ := run_dispose.mp hr
    obtain ⟨storage, hb⟩ := Store.has_content_iff.mp hb
    exact ⟨fun _ ↦ rfl, fun _ _ ↦ rfl,
      fun name h ↦ (Store.has_modifyStorage _ (by intro _; rfl) name).mpr h, fun _ ↦ rfl,
      fun _ ↦ rfl, fun _ ↦ rfl, fun c _ ↦ Store.contentOf_modifyStorage hb _ c,
      fun name ↦ Store.lockOf_modifyStorage _ (by intro _; rfl) name⟩
  | provide user kernel given refused =>
    obtain ⟨-, -, rfl⟩ | ⟨-, -, rfl⟩ := run_provide.mp hr
    · exact ⟨fun _ ↦ rfl, fun _ _ ↦ rfl, fun _ ↦ Store.has_push_storage s _, fun _ ↦ rfl,
        fun _ ↦ rfl, fun _ ↦ rfl, fun _ h ↦ Store.contentOf_push_storage s _ h,
        fun name ↦ Store.lockOf_push_storage s _ rfl name⟩
    · exact ⟨fun _ ↦ rfl, fun _ _ ↦ rfl, fun _ ↦ id, fun _ ↦ rfl, fun _ ↦ rfl, fun _ ↦ rfl,
        fun _ _ ↦ rfl, fun _ ↦ rfl⟩
  | enroll session capacity given refused =>
    obtain ⟨-, -, rfl⟩ | ⟨-, -, rfl⟩ := run_enroll.mp hr
    · exact ⟨fun _ ↦ rfl, fun _ h ↦ Store.sessionOf_push_registry s _ h,
        fun _ ↦ Store.has_push_registry s _, fun _ ↦ rfl, fun _ ↦ rfl,
        fun r ↦ Store.rosterOf_push_registry s _ rfl r, fun _ _ ↦ rfl,
        fun name ↦ Store.lockOf_push_registry s _ rfl name⟩
    · exact ⟨fun _ ↦ rfl, fun _ _ ↦ rfl, fun _ ↦ id, fun _ ↦ rfl, fun _ ↦ rfl, fun _ ↦ rfl,
        fun _ _ ↦ rfl, fun _ ↦ rfl⟩
  | consult t next =>
    rw [(run_consult.mp hr).2.2]
    exact changes_none rfl rfl rfl rfl fun _ ↦ rfl
  | reserve r user kernel given refused =>
    rw [(run_reserve.mp hr).2.2]
    exact changes_none rfl rfl rfl rfl fun _ ↦ rfl
  | readIndex t next =>
    rw [(run_readIndex.mp hr).2.2]
    exact changes_none rfl rfl rfl rfl fun _ ↦ rfl
  | readRoster r next =>
    rw [(run_readRoster.mp hr).2.2]
    exact changes_none rfl rfl rfl rfl fun _ ↦ rfl
  | readContent b next =>
    rw [(run_readContent.mp hr).2.2]
    exact changes_none rfl rfl rfl rfl fun _ ↦ rfl
  | «open» t r next =>
    rw [(run_open.mp hr).2]
    exact changes_none rfl rfl rfl rfl fun _ ↦ rfl
  | log event next =>
    rw [(run_log.mp hr).2]
    exact changes_none rfl rfl rfl rfl fun _ ↦ rfl
  | finish c first again =>
    obtain ⟨_, -, ⟨-, -, rfl⟩ | ⟨-, -, rfl⟩⟩ := run_finish.mp hr <;>
      exact changes_none rfl rfl rfl rfl fun _ ↦ rfl

/-- How a step changes the sessions. -/
theorem sessions_of_run (hr : instr.run supply who s = some (x, s')) :
    s'.sessions = instr.onSessions s.sessions := by
  cases instr with
  | «open» t r next =>
    rw [(run_open.mp hr).2]
    rfl
  | finish c first again =>
    obtain ⟨session, hc, ⟨he, -, rfl⟩ | ⟨-, -, rfl⟩⟩ := run_finish.mp hr
    · -- A session that has ended is not changed by being marked again.
      refine Array.ext (by simp [onSessions]) fun i _ _ ↦ ?_
      simp only [onSessions, Array.getElem_modify]
      split
      · next hci =>
        subst hci
        obtain ⟨_, hs⟩ := Array.getElem?_eq_some_iff.mp hc
        rw [hs, ← he]
      · rfl
    · rfl
  | acquire name mode next =>
    obtain ⟨-, _, -, -, rfl⟩ := run_acquire.mp hr
    cases name <;> rfl
  | tryAcquire name mode taken busy =>
    obtain ⟨-, ⟨_, -, -, rfl⟩ | ⟨-, -, rfl⟩⟩ := run_tryAcquire.mp hr
    · cases name <;> rfl
    · rfl
  | release name next =>
    rw [(run_release.mp hr).2.2]
    cases name <;> rfl
  | provide user kernel given refused =>
    obtain ⟨-, -, rfl⟩ | ⟨-, -, rfl⟩ := run_provide.mp hr <;> rfl
  | enroll session capacity given refused =>
    obtain ⟨-, -, rfl⟩ | ⟨-, -, rfl⟩ := run_enroll.mp hr <;> rfl
  | insert t key b fresh present =>
    obtain ⟨-, ⟨-, -, rfl⟩ | ⟨-, -, rfl⟩⟩ := run_insert.mp hr <;> rfl
  | consult t next => rw [(run_consult.mp hr).2.2]; rfl
  | reserve r user kernel given refused => rw [(run_reserve.mp hr).2.2]; rfl
  | draw t next => rw [(run_draw.mp hr).2.2]; rfl
  | erase t key next => rw [(run_erase.mp hr).2.2]; rfl
  | readIndex t next => rw [(run_readIndex.mp hr).2.2]; rfl
  | readRoster r next => rw [(run_readRoster.mp hr).2.2]; rfl
  | add r key next => rw [(run_add.mp hr).2.2]; rfl
  | remove r key next => rw [(run_remove.mp hr).2.2]; rfl
  | drain r next => rw [(run_drain.mp hr).2.2]; rfl
  | close r next => rw [(run_close.mp hr).2.2]; rfl
  | readContent b next => rw [(run_readContent.mp hr).2.2]; rfl
  | dispose b next => rw [(run_dispose.mp hr).2.2]; rfl
  | count t which amount next => rw [(run_count.mp hr).2.2]; rfl
  | log event next => rw [(run_log.mp hr).2]; rfl

/-- How a step changes the counters of a table. -/
theorem counters_of_run (hr : instr.run supply who s = some (x, s')) (t : TableRef)
    (which : Counter) :
    (s'.countersOf t).get which = (s.countersOf t).get which + instr.adds t which := by
  have hkept {u : Store} (hadds : instr.adds t which = 0)
      (hsame : u.countersOf t = s.countersOf t) :
      (u.countersOf t).get which = (s.countersOf t).get which + instr.adds t which := by
    rw [hadds, hsame, UInt64.add_zero]
  cases instr with
  | count u other amount next =>
    obtain ⟨hu, -, rfl⟩ := run_count.mp hr
    obtain ⟨table, hu⟩ := Store.has_table_iff.mp hu
    rw [Store.count, Store.countersOf_modifyTable hu]
    simp only [adds]
    by_cases ht : u = t
    · subst ht
      rw [if_pos rfl, Store.countersOf_eq hu, Counters.get_add]
      by_cases hw : other = which <;> simp [hw]
    · simp [ht]
  | acquire name mode next =>
    obtain ⟨-, _, -, -, rfl⟩ := run_acquire.mp hr
    exact hkept rfl (Store.countersOf_setLock ..)
  | tryAcquire name mode taken busy =>
    obtain ⟨-, ⟨_, -, -, rfl⟩ | ⟨-, -, rfl⟩⟩ := run_tryAcquire.mp hr
    · exact hkept rfl (Store.countersOf_setLock ..)
    · exact hkept rfl rfl
  | release name next =>
    rw [(run_release.mp hr).2.2]
    exact hkept rfl (Store.countersOf_setLock ..)
  | insert u key b fresh present =>
    obtain ⟨-, ⟨-, -, rfl⟩ | ⟨-, -, rfl⟩⟩ := run_insert.mp hr
    · exact hkept rfl rfl
    · exact hkept rfl (Store.countersOf_modifyTable_of _ (by intro _; rfl) t)
  | erase u key next =>
    rw [(run_erase.mp hr).2.2]
    exact hkept rfl (Store.countersOf_modifyTable_of _ (by intro _; rfl) t)
  | draw u next =>
    rw [(run_draw.mp hr).2.2]
    exact hkept rfl (Store.countersOf_modifyTable_of _ (by intro _; rfl) t)
  | provide user kernel given refused =>
    obtain ⟨-, -, rfl⟩ | ⟨-, -, rfl⟩ := run_provide.mp hr <;> exact hkept rfl rfl
  | enroll session capacity given refused =>
    obtain ⟨-, -, rfl⟩ | ⟨-, -, rfl⟩ := run_enroll.mp hr <;> exact hkept rfl rfl
  | finish c first again =>
    obtain ⟨_, -, ⟨-, -, rfl⟩ | ⟨-, -, rfl⟩⟩ := run_finish.mp hr <;> exact hkept rfl rfl
  | consult u next => rw [(run_consult.mp hr).2.2]; exact hkept rfl rfl
  | reserve r user kernel given refused => rw [(run_reserve.mp hr).2.2]; exact hkept rfl rfl
  | readIndex u next => rw [(run_readIndex.mp hr).2.2]; exact hkept rfl rfl
  | readRoster r next => rw [(run_readRoster.mp hr).2.2]; exact hkept rfl rfl
  | add r key next => rw [(run_add.mp hr).2.2]; exact hkept rfl rfl
  | remove r key next => rw [(run_remove.mp hr).2.2]; exact hkept rfl rfl
  | drain r next => rw [(run_drain.mp hr).2.2]; exact hkept rfl rfl
  | close r next => rw [(run_close.mp hr).2.2]; exact hkept rfl rfl
  | readContent b next => rw [(run_readContent.mp hr).2.2]; exact hkept rfl rfl
  | dispose b next => rw [(run_dispose.mp hr).2.2]; exact hkept rfl rfl
  | «open» u r next => rw [(run_open.mp hr).2]; exact hkept rfl rfl
  | log event next => rw [(run_log.mp hr).2]; exact hkept rfl rfl

/-- How a step changes the log. -/
theorem log_of_run (hr : instr.run supply who s = some (x, s')) :
    s'.log.toList = s.log.toList ++ instr.logs.map fun event ↦ (who, event) := by
  have hkept {u : Store} (hlogs : instr.logs = []) (hsame : u.log = s.log) :
      u.log.toList = s.log.toList ++ instr.logs.map fun event ↦ (who, event) := by
    rw [hlogs, hsame, List.map_nil, List.append_nil]
  cases instr with
  | log event next =>
    rw [(run_log.mp hr).2]
    exact Array.toList_push
  | acquire name mode next =>
    obtain ⟨-, _, -, -, rfl⟩ := run_acquire.mp hr
    exact hkept rfl (Store.log_setLock ..)
  | tryAcquire name mode taken busy =>
    obtain ⟨-, ⟨_, -, -, rfl⟩ | ⟨-, -, rfl⟩⟩ := run_tryAcquire.mp hr
    · exact hkept rfl (Store.log_setLock ..)
    · exact hkept rfl rfl
  | release name next =>
    rw [(run_release.mp hr).2.2]
    exact hkept rfl (Store.log_setLock ..)
  | provide user kernel given refused =>
    obtain ⟨-, -, rfl⟩ | ⟨-, -, rfl⟩ := run_provide.mp hr <;> exact hkept rfl rfl
  | enroll session capacity given refused =>
    obtain ⟨-, -, rfl⟩ | ⟨-, -, rfl⟩ := run_enroll.mp hr <;> exact hkept rfl rfl
  | insert t key b fresh present =>
    obtain ⟨-, ⟨-, -, rfl⟩ | ⟨-, -, rfl⟩⟩ := run_insert.mp hr <;> exact hkept rfl rfl
  | finish c first again =>
    obtain ⟨_, -, ⟨-, -, rfl⟩ | ⟨-, -, rfl⟩⟩ := run_finish.mp hr <;> exact hkept rfl rfl
  | «open» t r next => rw [(run_open.mp hr).2]; exact hkept rfl rfl
  | consult t next => rw [(run_consult.mp hr).2.2]; exact hkept rfl rfl
  | reserve r user kernel given refused => rw [(run_reserve.mp hr).2.2]; exact hkept rfl rfl
  | draw t next => rw [(run_draw.mp hr).2.2]; exact hkept rfl rfl
  | erase t key next => rw [(run_erase.mp hr).2.2]; exact hkept rfl rfl
  | readIndex t next => rw [(run_readIndex.mp hr).2.2]; exact hkept rfl rfl
  | readRoster r next => rw [(run_readRoster.mp hr).2.2]; exact hkept rfl rfl
  | add r key next => rw [(run_add.mp hr).2.2]; exact hkept rfl rfl
  | remove r key next => rw [(run_remove.mp hr).2.2]; exact hkept rfl rfl
  | drain r next => rw [(run_drain.mp hr).2.2]; exact hkept rfl rfl
  | close r next => rw [(run_close.mp hr).2.2]; exact hkept rfl rfl
  | readContent b next => rw [(run_readContent.mp hr).2.2]; exact hkept rfl rfl
  | dispose b next => rw [(run_dispose.mp hr).2.2]; exact hkept rfl rfl
  | count t which amount next => rw [(run_count.mp hr).2.2]; exact hkept rfl rfl

/-! ### What only grows -/

/-- Whether a step may set up a registry or storage. -/
def makes : Instr σ → Bool
  | provide _ _ _ _ | enroll _ _ _ _ => true
  | _ => false

theorem makes_of_isStill (h : instr.isStill = true) : instr.makes = false := by
  cases instr <;> first
    | rfl
    | cases h

/-- The parts of a store that change only when something is set up: the limits of its tables, the
sessions of its registries and the number of its storages. -/
structure SameFrame (s s' : Store) : Prop where
  limits : s'.tables.map Table.limits = s.tables.map Table.limits
  sessions : s'.registries.map Registry.session = s.registries.map Registry.session
  storages : s'.storages.size = s.storages.size

private theorem map_modify {α β : Type} (xs : Array α) (i : Nat) {f : α → α} {view : α → β}
    (h : ∀ x, view (f x) = view x) : (xs.modify i f).map view = xs.map view := by
  refine Array.ext (by simp) fun j _ _ ↦ ?_
  simp only [Array.getElem_map, Array.getElem_modify]
  split
  · exact h _
  · rfl

theorem sameFrame_modifyTable (t : TableRef) {f : Table → Table}
    (h : ∀ table, (f table).limits = table.limits) : SameFrame s (s.modifyTable t f) :=
  ⟨map_modify _ _ h, rfl, rfl⟩

private theorem sameFrame_modifyRegistry (r : RegistryRef) {f : Registry → Registry}
    (h : ∀ registry, (f registry).session = registry.session) :
    SameFrame s (s.modifyRegistry r f) :=
  ⟨rfl, map_modify _ _ h, rfl⟩

private theorem sameFrame_modifyStorage (b : StorageRef) (f : Storage → Storage) :
    SameFrame s (s.modifyStorage b f) :=
  ⟨rfl, rfl, Array.size_modify⟩

theorem sameFrame_setLock (name : LockName) (l : Lock) : SameFrame s (s.setLock name l) := by
  cases name with
  | table t => exact sameFrame_modifyTable t (by intro _; rfl)
  | registry r => exact sameFrame_modifyRegistry r (by intro _; rfl)
  | content b => exact sameFrame_modifyStorage b _

/-- A step that sets nothing up keeps the frame of a store. -/
theorem sameFrame_of_run (hr : instr.run supply who s = some (x, s')) (h : instr.makes = false) :
    SameFrame s s' := by
  cases instr with
  | provide user kernel given refused => cases h
  | enroll session capacity given refused => cases h
  | finish c first again =>
    obtain ⟨_, -, ⟨-, -, rfl⟩ | ⟨-, -, rfl⟩⟩ := run_finish.mp hr <;> exact ⟨rfl, rfl, rfl⟩
  | acquire name mode next =>
    obtain ⟨-, l, -, -, rfl⟩ := run_acquire.mp hr
    exact sameFrame_setLock name l
  | tryAcquire name mode taken busy =>
    obtain ⟨-, ⟨l, -, -, rfl⟩ | ⟨-, -, rfl⟩⟩ := run_tryAcquire.mp hr
    · exact sameFrame_setLock name l
    · exact ⟨rfl, rfl, rfl⟩
  | release name next =>
    rw [(run_release.mp hr).2.2]
    exact sameFrame_setLock name _
  | insert t key b fresh present =>
    obtain ⟨-, ⟨-, -, rfl⟩ | ⟨-, -, rfl⟩⟩ := run_insert.mp hr
    · exact ⟨rfl, rfl, rfl⟩
    · exact sameFrame_modifyTable t (by intro _; rfl)
  | draw t next =>
    rw [(run_draw.mp hr).2.2]
    exact sameFrame_modifyTable t (by intro _; rfl)
  | erase t key next =>
    rw [(run_erase.mp hr).2.2]
    exact sameFrame_modifyTable t (by intro _; rfl)
  | count t which amount next =>
    rw [(run_count.mp hr).2.2]
    exact sameFrame_modifyTable t (by intro _; rfl)
  | add r key next =>
    rw [(run_add.mp hr).2.2]
    exact sameFrame_modifyRegistry r (by intro _; rfl)
  | remove r key next =>
    rw [(run_remove.mp hr).2.2]
    exact sameFrame_modifyRegistry r (by intro _; rfl)
  | drain r next =>
    rw [(run_drain.mp hr).2.2]
    exact sameFrame_modifyRegistry r (by intro _; rfl)
  | close r next =>
    rw [(run_close.mp hr).2.2]
    exact sameFrame_modifyRegistry r (by intro _; rfl)
  | dispose b next =>
    rw [(run_dispose.mp hr).2.2]
    exact sameFrame_modifyStorage b _
  | consult t next => rw [(run_consult.mp hr).2.2]; exact ⟨rfl, rfl, rfl⟩
  | reserve r user kernel given refused => rw [(run_reserve.mp hr).2.2]; exact ⟨rfl, rfl, rfl⟩
  | readIndex t next => rw [(run_readIndex.mp hr).2.2]; exact ⟨rfl, rfl, rfl⟩
  | readRoster r next => rw [(run_readRoster.mp hr).2.2]; exact ⟨rfl, rfl, rfl⟩
  | readContent b next => rw [(run_readContent.mp hr).2.2]; exact ⟨rfl, rfl, rfl⟩
  | «open» t r next => rw [(run_open.mp hr).2]; exact ⟨rfl, rfl, rfl⟩
  | log event next => rw [(run_log.mp hr).2]; exact ⟨rfl, rfl, rfl⟩

end Instr

end SessionBuffers
