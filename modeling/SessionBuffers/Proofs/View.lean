import Mathlib.Logic.Equiv.Basic
import SessionBuffers.Instr

/-!
# Looking into a store

Total views of a store: the limits, the index, the next number and the counters of a table, the
session and the roster of a registry, the content of a storage, and who holds a lock. What does not
exist looks empty, released and free. A change of one kind is shown to leave every other view alone.
-/

namespace SessionBuffers

/-! ### Entries of an index -/

namespace Index

theorem getElem?_insert (index : Index) (key k : Key) (b : StorageRef) :
    (index.insert key b)[k]? = if key = k then some b else index[k]? := by
  rw [Std.ExtTreeMap.getElem?_insert]
  simp only [Std.LawfulEqCmp.compare_eq_iff_eq]

theorem getElem?_erase (index : Index) (key k : Key) :
    (index.erase key)[k]? = if key = k then none else index[k]? := by
  rw [Std.ExtTreeMap.getElem?_erase]
  simp only [Std.LawfulEqCmp.compare_eq_iff_eq]

theorem contains_iff {index : Index} {key : Key} :
    index.contains key = true ↔ ∃ b, index[key]? = some b := by
  rw [Std.ExtTreeMap.contains_eq_isSome_getElem?, Option.isSome_iff_exists]

theorem not_contains_iff {index : Index} {key : Key} :
    index.contains key = false ↔ index[key]? = none := by
  rw [Std.ExtTreeMap.contains_eq_isSome_getElem?, Option.isSome_eq_false_iff,
    Option.isNone_iff_eq_none]

theorem contains_insert {index : Index} {key k : Key} {b : StorageRef} :
    (index.insert key b).contains k = true ↔ key = k ∨ index.contains k = true := by
  simp

theorem contains_erase {index : Index} {key k : Key} :
    (index.erase key).contains k = true ↔ key ≠ k ∧ index.contains k = true := by
  simp

theorem size_insert {index : Index} {key : Key} (h : index[key]? = none) (b : StorageRef) :
    (index.insert key b).size = index.size + 1 := by
  rw [Std.ExtTreeMap.size_insert, not_contains_iff.mpr h, if_neg Bool.false_ne_true]

theorem size_erase {index : Index} {key : Key} {b : StorageRef} (h : index[key]? = some b) :
    (index.erase key).size + 1 = index.size := by
  rw [Std.ExtTreeMap.size_erase, if_pos (contains_iff.mpr ⟨b, h⟩)]
  refine Nat.sub_add_cancel (Nat.pos_of_ne_zero fun hzero ↦ ?_)
  rw [Std.ExtTreeMap.eq_empty_iff_size_eq_zero.mpr hzero] at h
  simp at h

end Index

/-! ### Keys of a roster -/

namespace Roster

theorem contains_add {r : Roster} {key k : Key} :
    (r.add key).contains k = true ↔ key = k ∨ r.contains k = true := by
  simp [add, contains]

theorem contains_remove {r : Roster} {key k : Key} :
    (r.remove key).contains k = true ↔ key ≠ k ∧ r.contains k = true := by
  simp [remove, contains]

theorem not_contains_drained (r : Roster) (k : Key) : ¬ r.drained.contains k = true := by
  simp [drained, contains]

@[simp] theorem contains_close (r : Roster) (k : Key) : r.close.contains k = r.contains k := rfl

theorem mem_toList {r : Roster} {k : Key} : k ∈ r.toList ↔ r.contains k = true := by
  simp [toList, contains]

theorem nodup_toList (r : Roster) : r.toList.Nodup :=
  Std.ExtTreeSet.distinct_toList.imp fun hne he ↦
    hne (Std.LawfulEqCmp.compare_eq_iff_eq.mpr he)

theorem length_toList (r : Roster) : r.toList.length = r.size := by
  simp [toList, size]

end Roster

/-! ### Views -/

namespace Store

/-- The index of a table. -/
def indexOf (s : Store) (t : TableRef) : Index := (s.tables[t]?.map Table.index).getD ∅

/-- The limits of a table. -/
def limitsOf (s : Store) (t : TableRef) : Limits := (s.tables[t]?.map Table.limits).getD {}

/-- The number a table hands out next. -/
def nextIdOf (s : Store) (t : TableRef) : BufferId := (s.tables[t]?.map Table.nextId).getD ⟨0⟩

/-- The counters of a table. -/
def countersOf (s : Store) (t : TableRef) : Counters :=
  (s.tables[t]?.map Table.counters).getD {}

/-- The session of a registry. -/
def sessionOf (s : Store) (r : RegistryRef) : SessionId :=
  (s.registries[r]?.map Registry.session).getD ⟨0⟩

/-- The roster of a registry. -/
def rosterOf (s : Store) (r : RegistryRef) : Roster :=
  (s.registries[r]?.map Registry.roster).getD {}

/-- The content of a storage. -/
def contentOf (s : Store) (b : StorageRef) : Content :=
  (s.storages[b]?.map Storage.content).getD .gone

/-- The lock of a name. -/
def lockOf (s : Store) (name : LockName) : Lock := (s.lock? name).getD .free

/-- Whether there is a table, registry or storage with a lock of this name. -/
def Has (s : Store) (name : LockName) : Prop := (s.lock? name).isSome

theorem has_table {s : Store} {t : TableRef} : s.Has (.table t) ↔ t < s.tables.size := by
  simp [Has, lock?]

theorem has_registry {s : Store} {r : RegistryRef} :
    s.Has (.registry r) ↔ r < s.registries.size := by
  simp [Has, lock?]

theorem has_content {s : Store} {b : StorageRef} : s.Has (.content b) ↔ b < s.storages.size := by
  simp [Has, lock?]

theorem has_table_iff {s : Store} {t : TableRef} :
    s.Has (.table t) ↔ ∃ table, s.tables[t]? = some table := by
  rw [has_table]
  exact ⟨fun h ↦ ⟨s.tables[t], by simp [h]⟩, fun ⟨_, h⟩ ↦ (Array.getElem?_eq_some_iff.mp h).1⟩

theorem has_registry_iff {s : Store} {r : RegistryRef} :
    s.Has (.registry r) ↔ ∃ registry, s.registries[r]? = some registry := by
  rw [has_registry]
  exact ⟨fun h ↦ ⟨s.registries[r], by simp [h]⟩, fun ⟨_, h⟩ ↦ (Array.getElem?_eq_some_iff.mp h).1⟩

theorem has_content_iff {s : Store} {b : StorageRef} :
    s.Has (.content b) ↔ ∃ storage, s.storages[b]? = some storage := by
  rw [has_content]
  exact ⟨fun h ↦ ⟨s.storages[b], by simp [h]⟩, fun ⟨_, h⟩ ↦ (Array.getElem?_eq_some_iff.mp h).1⟩

theorem lock?_eq_some {s : Store} {name : LockName} {l : Lock} (h : s.lock? name = some l) :
    s.lockOf name = l := by
  simp [lockOf, h]

theorem lock?_of_has {s : Store} {name : LockName} (h : s.Has name) :
    s.lock? name = some (s.lockOf name) := by
  obtain ⟨l, hl⟩ := Option.isSome_iff_exists.mp h
  simp [lockOf, hl]

theorem indexOf_eq {s : Store} {t : TableRef} {table : Table} (h : s.tables[t]? = some table) :
    s.indexOf t = table.index := by
  simp [indexOf, h]

theorem limitsOf_eq {s : Store} {t : TableRef} {table : Table} (h : s.tables[t]? = some table) :
    s.limitsOf t = table.limits := by
  simp [limitsOf, h]

theorem nextIdOf_eq {s : Store} {t : TableRef} {table : Table} (h : s.tables[t]? = some table) :
    s.nextIdOf t = table.nextId := by
  simp [nextIdOf, h]

theorem countersOf_eq {s : Store} {t : TableRef} {table : Table} (h : s.tables[t]? = some table) :
    s.countersOf t = table.counters := by
  simp [countersOf, h]

theorem rosterOf_eq {s : Store} {r : RegistryRef} {registry : Registry}
    (h : s.registries[r]? = some registry) : s.rosterOf r = registry.roster := by
  simp [rosterOf, h]

theorem contentOf_eq {s : Store} {b : StorageRef} {storage : Storage}
    (h : s.storages[b]? = some storage) : s.contentOf b = storage.content := by
  simp [contentOf, h]

/-- Content that is not released exists. -/
theorem has_of_unreleased {s : Store} {b : StorageRef} (h : (s.contentOf b).released = false) :
    s.Has (.content b) := by
  rw [has_content]
  cases hb : s.storages[b]? with
  | none => simp [contentOf, hb, Content.gone] at h
  | some storage => exact (Array.getElem?_eq_some_iff.mp hb).1

/-- A registry that lists a key exists. -/
theorem has_of_contains {s : Store} {r : RegistryRef} {k : Key}
    (h : (s.rosterOf r).contains k = true) : s.Has (.registry r) := by
  rw [has_registry_iff]
  cases hr : s.registries[r]? with
  | none => simp [rosterOf, hr, Roster.contains] at h
  | some registry => exact ⟨registry, rfl⟩

/-! ### Changes of one table, registry or storage -/

section Modify

variable {s : Store} {t : TableRef} {table : Table} {r : RegistryRef} {registry : Registry}
  {b : StorageRef} {storage : Storage}

theorem indexOf_modifyTable (h : s.tables[t]? = some table) (f : Table → Table) (u : TableRef) :
    (s.modifyTable t f).indexOf u = if t = u then (f table).index else s.indexOf u := by
  simp only [indexOf, modifyTable, Array.getElem?_modify]
  split
  · next he => simp [← he, h]
  · rfl

theorem nextIdOf_modifyTable (h : s.tables[t]? = some table) (f : Table → Table) (u : TableRef) :
    (s.modifyTable t f).nextIdOf u = if t = u then (f table).nextId else s.nextIdOf u := by
  simp only [nextIdOf, modifyTable, Array.getElem?_modify]
  split
  · next he => simp [← he, h]
  · rfl

theorem countersOf_modifyTable (h : s.tables[t]? = some table) (f : Table → Table) (u : TableRef) :
    (s.modifyTable t f).countersOf u = if t = u then (f table).counters else s.countersOf u := by
  simp only [countersOf, modifyTable, Array.getElem?_modify]
  split
  · next he => simp [← he, h]
  · rfl

theorem rosterOf_modifyRegistry (h : s.registries[r]? = some registry)
    (f : Registry → Registry) (q : RegistryRef) :
    (s.modifyRegistry r f).rosterOf q = if r = q then (f registry).roster else s.rosterOf q := by
  simp only [rosterOf, modifyRegistry, Array.getElem?_modify]
  split
  · next he => simp [← he, h]
  · rfl

theorem contentOf_modifyStorage (h : s.storages[b]? = some storage) (f : Storage → Storage)
    (c : StorageRef) :
    (s.modifyStorage b f).contentOf c = if b = c then (f storage).content else s.contentOf c := by
  simp only [contentOf, modifyStorage, Array.getElem?_modify]
  split
  · next he => simp [← he, h]
  · rfl

/-- What keeps a part of every table keeps that view of the store. -/
private theorem view_modify {α β : Type} (xs : Array α) (i : Nat) (f : α → α) (view : α → β)
    (h : ∀ x, view (f x) = view x) (j : Nat) : (xs.modify i f)[j]?.map view = xs[j]?.map view := by
  rw [Array.getElem?_modify]
  split
  · simp [Option.map_map, Function.comp_def, h]
  · rfl

theorem limitsOf_modifyTable (f : Table → Table) (hf : ∀ table, (f table).limits = table.limits)
    (u : TableRef) : (s.modifyTable t f).limitsOf u = s.limitsOf u :=
  congrArg (·.getD {}) (view_modify s.tables t f Table.limits hf u)

theorem indexOf_modifyTable_of (f : Table → Table) (hf : ∀ table, (f table).index = table.index)
    (u : TableRef) : (s.modifyTable t f).indexOf u = s.indexOf u :=
  congrArg (·.getD ∅) (view_modify s.tables t f Table.index hf u)

theorem nextIdOf_modifyTable_of (f : Table → Table)
    (hf : ∀ table, (f table).nextId = table.nextId) (u : TableRef) :
    (s.modifyTable t f).nextIdOf u = s.nextIdOf u :=
  congrArg (·.getD ⟨0⟩) (view_modify s.tables t f Table.nextId hf u)

theorem countersOf_modifyTable_of (f : Table → Table)
    (hf : ∀ table, (f table).counters = table.counters) (u : TableRef) :
    (s.modifyTable t f).countersOf u = s.countersOf u :=
  congrArg (·.getD {}) (view_modify s.tables t f Table.counters hf u)

theorem lock?_modifyTable (f : Table → Table) (hf : ∀ table, (f table).lock = table.lock)
    (name : LockName) : (s.modifyTable t f).lock? name = s.lock? name := by
  cases name with
  | table u => exact view_modify s.tables t f Table.lock hf u
  | registry q => rfl
  | content c => rfl

theorem lockOf_modifyTable (f : Table → Table) (hf : ∀ table, (f table).lock = table.lock)
    (name : LockName) : (s.modifyTable t f).lockOf name = s.lockOf name :=
  congrArg (·.getD .free) (lock?_modifyTable f hf name)

theorem has_modifyTable (f : Table → Table) (hf : ∀ table, (f table).lock = table.lock)
    (name : LockName) : (s.modifyTable t f).Has name ↔ s.Has name := by
  rw [Has, Has, lock?_modifyTable f hf]

theorem sessionOf_modifyRegistry (f : Registry → Registry)
    (hf : ∀ registry, (f registry).session = registry.session) (q : RegistryRef) :
    (s.modifyRegistry r f).sessionOf q = s.sessionOf q :=
  congrArg (·.getD ⟨0⟩) (view_modify s.registries r f Registry.session hf q)

theorem rosterOf_modifyRegistry_of (f : Registry → Registry)
    (hf : ∀ registry, (f registry).roster = registry.roster) (q : RegistryRef) :
    (s.modifyRegistry r f).rosterOf q = s.rosterOf q :=
  congrArg (·.getD {}) (view_modify s.registries r f Registry.roster hf q)

theorem lock?_modifyRegistry (f : Registry → Registry)
    (hf : ∀ registry, (f registry).lock = registry.lock) (name : LockName) :
    (s.modifyRegistry r f).lock? name = s.lock? name := by
  cases name with
  | table u => rfl
  | registry q => exact view_modify s.registries r f Registry.lock hf q
  | content c => rfl

theorem lockOf_modifyRegistry (f : Registry → Registry)
    (hf : ∀ registry, (f registry).lock = registry.lock) (name : LockName) :
    (s.modifyRegistry r f).lockOf name = s.lockOf name :=
  congrArg (·.getD .free) (lock?_modifyRegistry f hf name)

theorem has_modifyRegistry (f : Registry → Registry)
    (hf : ∀ registry, (f registry).lock = registry.lock) (name : LockName) :
    (s.modifyRegistry r f).Has name ↔ s.Has name := by
  rw [Has, Has, lock?_modifyRegistry f hf]

theorem contentOf_modifyStorage_of (f : Storage → Storage)
    (hf : ∀ storage, (f storage).content = storage.content) (c : StorageRef) :
    (s.modifyStorage b f).contentOf c = s.contentOf c :=
  congrArg (·.getD .gone) (view_modify s.storages b f Storage.content hf c)

theorem lock?_modifyStorage (f : Storage → Storage)
    (hf : ∀ storage, (f storage).lock = storage.lock) (name : LockName) :
    (s.modifyStorage b f).lock? name = s.lock? name := by
  cases name with
  | table u => rfl
  | registry q => rfl
  | content c => exact view_modify s.storages b f Storage.lock hf c

theorem lockOf_modifyStorage (f : Storage → Storage)
    (hf : ∀ storage, (f storage).lock = storage.lock) (name : LockName) :
    (s.modifyStorage b f).lockOf name = s.lockOf name :=
  congrArg (·.getD .free) (lock?_modifyStorage f hf name)

theorem has_modifyStorage (f : Storage → Storage) (hf : ∀ storage, (f storage).lock = storage.lock)
    (name : LockName) : (s.modifyStorage b f).Has name ↔ s.Has name := by
  rw [Has, Has, lock?_modifyStorage f hf]

/-- Replaced content is the new one, and the content of every other storage stays. -/
theorem contentOf_setContent (h : s.Has (.content b)) (content : Content) (c : StorageRef) :
    (s.setContent b content).contentOf c = if b = c then content else s.contentOf c := by
  obtain ⟨storage, h⟩ := has_content_iff.mp h
  exact contentOf_modifyStorage h _ c

theorem lock?_setContent (content : Content) (name : LockName) :
    (s.setContent b content).lock? name = s.lock? name :=
  lock?_modifyStorage _ (by intro _; rfl) name

theorem lock?_swapped {d : StorageRef} (content other : Content) (name : LockName) :
    ((s.setContent b content).setContent d other).lock? name = s.lock? name := by
  rw [lock?_setContent, lock?_setContent]

/-- When two contents have been replaced by each other, each is found where the other was. -/
theorem contentOf_swapped {d : StorageRef} (hb : s.Has (.content b)) (hd : s.Has (.content d))
    (c : StorageRef) : ((s.setContent b (s.contentOf d)).setContent d (s.contentOf b)).contentOf c =
      s.contentOf (Equiv.swap b d c) := by
  have hd' : (s.setContent b (s.contentOf d)).Has (.content d) := by
    rwa [Has, lock?_setContent]
  rw [contentOf_setContent hd', contentOf_setContent hb]
  rcases eq_or_ne c d with rfl | hcd
  · rw [if_pos rfl, Equiv.swap_apply_right]
  rcases eq_or_ne c b with rfl | hcb
  · rw [if_neg hcd.symm, if_pos rfl, Equiv.swap_apply_left]
  · rw [if_neg hcd.symm, if_neg hcb.symm, Equiv.swap_apply_of_ne_of_ne hcb hcd]

/-- A replaced lock is the new one, and every other lock stays. -/
theorem lock?_setLock (s : Store) (name other : LockName) (l : Lock) :
    (s.setLock name l).lock? other =
      if name = other then (s.lock? other).map fun _ ↦ l else s.lock? other := by
  cases name <;> cases other <;>
    simp only [setLock, modifyTable, modifyRegistry, modifyStorage, lock?, Array.getElem?_modify,
      LockName.table.injEq, LockName.registry.injEq, LockName.content.injEq, reduceCtorEq,
      if_false] <;>
    split <;> simp [Option.map_map, Function.comp_def]

theorem lockOf_setLock (h : s.Has name) (other : LockName)
    (l : Lock) : (s.setLock name l).lockOf other = if name = other then l else s.lockOf other := by
  simp only [lockOf, lock?_setLock]
  split
  · next he =>
    subst he
    simp [lock?_of_has h]
  · rfl

end Modify

/-! ### Changes of one kind leave the other views alone -/

section Frame

variable (s : Store)

@[simp] theorem limitsOf_setLock (name : LockName) (l : Lock) (t : TableRef) :
    (s.setLock name l).limitsOf t = s.limitsOf t := by
  cases name with
  | table u => exact limitsOf_modifyTable (fun table ↦ { table with lock := l }) (fun _ ↦ rfl) t
  | registry r => rfl
  | content b => rfl

@[simp] theorem indexOf_setLock (name : LockName) (l : Lock) (t : TableRef) :
    (s.setLock name l).indexOf t = s.indexOf t := by
  cases name with
  | table u => exact indexOf_modifyTable_of (fun table ↦ { table with lock := l }) (fun _ ↦ rfl) t
  | registry r => rfl
  | content b => rfl

@[simp] theorem nextIdOf_setLock (name : LockName) (l : Lock) (t : TableRef) :
    (s.setLock name l).nextIdOf t = s.nextIdOf t := by
  cases name with
  | table u => exact nextIdOf_modifyTable_of (fun table ↦ { table with lock := l }) (fun _ ↦ rfl) t
  | registry r => rfl
  | content b => rfl

@[simp] theorem countersOf_setLock (name : LockName) (l : Lock) (t : TableRef) :
    (s.setLock name l).countersOf t = s.countersOf t := by
  cases name with
  | table u =>
    exact countersOf_modifyTable_of (fun table ↦ { table with lock := l }) (fun _ ↦ rfl) t
  | registry r => rfl
  | content b => rfl

@[simp] theorem sessionOf_setLock (name : LockName) (l : Lock) (r : RegistryRef) :
    (s.setLock name l).sessionOf r = s.sessionOf r := by
  cases name with
  | table u => rfl
  | registry q =>
    exact sessionOf_modifyRegistry (fun registry ↦ { registry with lock := l }) (fun _ ↦ rfl) r
  | content b => rfl

@[simp] theorem rosterOf_setLock (name : LockName) (l : Lock) (r : RegistryRef) :
    (s.setLock name l).rosterOf r = s.rosterOf r := by
  cases name with
  | table u => rfl
  | registry q =>
    exact rosterOf_modifyRegistry_of (fun registry ↦ { registry with lock := l }) (fun _ ↦ rfl) r
  | content b => rfl

@[simp] theorem contentOf_setLock (name : LockName) (l : Lock) (b : StorageRef) :
    (s.setLock name l).contentOf b = s.contentOf b := by
  cases name with
  | table u => rfl
  | registry r => rfl
  | content c =>
    exact contentOf_modifyStorage_of (fun storage ↦ { storage with lock := l }) (fun _ ↦ rfl) b

@[simp] theorem sessions_setLock (name : LockName) (l : Lock) :
    (s.setLock name l).sessions = s.sessions := by
  cases name <;> rfl

@[simp] theorem log_setLock (name : LockName) (l : Lock) : (s.setLock name l).log = s.log := by
  cases name <;> rfl

@[simp] theorem has_setLock (name : LockName) (l : Lock) (other : LockName) :
    (s.setLock name l).Has other ↔ s.Has other := by
  simp only [Has, lock?_setLock]
  split <;> simp

@[simp] theorem rosterOf_push_registry (registry : Registry) (hr : registry.roster = {})
    (r : RegistryRef) :
    rosterOf { s with registries := s.registries.push registry } r = s.rosterOf r := by
  simp only [rosterOf, Array.getElem?_push]
  split
  · next he => simp [he, hr]
  · rfl

theorem sessionOf_push_registry (registry : Registry) {r : RegistryRef}
    (h : s.Has (.registry r)) :
    sessionOf { s with registries := s.registries.push registry } r = s.sessionOf r := by
  have hne : r ≠ s.registries.size := Nat.ne_of_lt (has_registry.mp h)
  simp [sessionOf, Array.getElem?_push, hne]

theorem contentOf_push_storage (storage : Storage) {b : StorageRef} (h : s.Has (.content b)) :
    contentOf { s with storages := s.storages.push storage } b = s.contentOf b := by
  have hne : b ≠ s.storages.size := Nat.ne_of_lt (has_content.mp h)
  simp [contentOf, Array.getElem?_push, hne]

theorem lockOf_push_registry (registry : Registry) (hl : registry.lock = .free)
    (name : LockName) :
    lockOf { s with registries := s.registries.push registry } name = s.lockOf name := by
  cases name with
  | table u => rfl
  | registry r =>
    simp only [lockOf, lock?, Array.getElem?_push]
    split
    · next he => simp [he, hl]
    · rfl
  | content b => rfl

theorem lockOf_push_storage (storage : Storage) (hl : storage.lock = .free) (name : LockName) :
    lockOf { s with storages := s.storages.push storage } name = s.lockOf name := by
  cases name with
  | table u => rfl
  | registry r => rfl
  | content b =>
    simp only [lockOf, lock?, Array.getElem?_push]
    split
    · next he => simp [he, hl]
    · rfl

theorem has_push_registry (registry : Registry) {name : LockName} (h : s.Has name) :
    Has { s with registries := s.registries.push registry } name := by
  cases name with
  | table u => exact h
  | registry r =>
    rw [has_registry] at h ⊢
    exact Nat.lt_of_lt_of_eq (Nat.lt_succ_of_lt h) (Array.size_push ..).symm
  | content b => exact h

theorem has_push_storage (storage : Storage) {name : LockName} (h : s.Has name) :
    Has { s with storages := s.storages.push storage } name := by
  cases name with
  | table u => exact h
  | registry r => exact h
  | content b =>
    rw [has_content] at h ⊢
    exact Nat.lt_of_lt_of_eq (Nat.lt_succ_of_lt h) (Array.size_push ..).symm

end Frame

end Store

end SessionBuffers
