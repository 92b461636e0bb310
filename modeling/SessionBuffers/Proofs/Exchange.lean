import SessionBuffers.Proofs.Clearance
import SessionBuffers.Proofs.Undoing

/-!
# Work with two registries can be exchanged

An allocation, a free or a teardown is a `Transaction` of a registry with a table. What it comes to
is settled by the roster of the registry and by what the index has under the keys listed there
(`Transaction.comesTo`), and all it makes of the store is one `Change`: keys taken out, at most one
key put in, a new roster and some counts. When two registries list different keys, neither touches
what settles the transaction of the other, and their changes can be made in either order.
-/

namespace SessionBuffers

/-! ### Stores that show the same -/

/-- The store with nothing logged. -/
def Store.unlogged (s : Store) : Store := { s with log := #[] }

namespace Store

variable {s s' : Store}

private theorem tables_eq (hlimits : s'.tables.map Table.limits = s.tables.map Table.limits)
    (hindex : ∀ t, s'.indexOf t = s.indexOf t) (hnext : ∀ t, s'.nextIdOf t = s.nextIdOf t)
    (hcounters : ∀ t, s'.countersOf t = s.countersOf t)
    (hlock : ∀ t, s'.lockOf (.table t) = s.lockOf (.table t)) : s'.tables = s.tables := by
  apply Array.ext_getElem?
  intro t
  have hl := congrArg (·[t]?) hlimits
  have hi := hindex t
  have hn := hnext t
  have hc := hcounters t
  have hk := hlock t
  simp only [Array.getElem?_map] at hl
  simp only [indexOf, nextIdOf, countersOf, lockOf, lock?] at hi hn hc hk
  cases ht' : s'.tables[t]? with
  | none =>
    cases ht : s.tables[t]? with
    | none => rfl
    | some table => simp [ht, ht'] at hl
  | some table' =>
    cases ht : s.tables[t]? with
    | none => simp [ht, ht'] at hl
    | some table =>
      simp only [ht, ht', Option.map_some, Option.getD_some, Option.some.injEq] at hl hi hn hc hk
      cases table
      cases table'
      simp_all

private theorem registries_eq
    (howners : s'.registries.map Registry.session = s.registries.map Registry.session)
    (hroster : ∀ r, s'.rosterOf r = s.rosterOf r)
    (hlock : ∀ r, s'.lockOf (.registry r) = s.lockOf (.registry r)) :
    s'.registries = s.registries := by
  apply Array.ext_getElem?
  intro r
  have ho := congrArg (·[r]?) howners
  have hr := hroster r
  have hk := hlock r
  simp only [Array.getElem?_map] at ho
  simp only [rosterOf, lockOf, lock?] at hr hk
  cases hr' : s'.registries[r]? with
  | none =>
    cases hr₀ : s.registries[r]? with
    | none => rfl
    | some registry => simp [hr₀, hr'] at ho
  | some registry' =>
    cases hr₀ : s.registries[r]? with
    | none => simp [hr₀, hr'] at ho
    | some registry =>
      simp only [hr₀, hr', Option.map_some, Option.getD_some, Option.some.injEq] at ho hr hk
      cases registry
      cases registry'
      simp_all

private theorem storages_eq (hsize : s'.storages.size = s.storages.size)
    (hcontent : ∀ b, s'.contentOf b = s.contentOf b)
    (hlock : ∀ b, s'.lockOf (.content b) = s.lockOf (.content b)) : s'.storages = s.storages := by
  apply Array.ext hsize
  intro b hb' hb
  have hc := hcontent b
  have hk := hlock b
  simp only [contentOf, lockOf, lock?, Array.getElem?_eq_getElem hb', Array.getElem?_eq_getElem hb,
    Option.map_some, Option.getD_some] at hc hk
  cases h' : s'.storages[b]
  cases h : s.storages[b]
  simp_all

/-- Two stores in which everything looks the same are the same but for the log. -/
theorem unlogged_eq (hlimits : s'.tables.map Table.limits = s.tables.map Table.limits)
    (howners : s'.registries.map Registry.session = s.registries.map Registry.session)
    (hsessions : s'.sessions = s.sessions) (hsize : s'.storages.size = s.storages.size)
    (hindex : ∀ t, s'.indexOf t = s.indexOf t) (hnext : ∀ t, s'.nextIdOf t = s.nextIdOf t)
    (hcounters : ∀ t, s'.countersOf t = s.countersOf t)
    (hroster : ∀ r, s'.rosterOf r = s.rosterOf r)
    (hcontent : ∀ b, s'.contentOf b = s.contentOf b)
    (hlock : ∀ name, s'.lockOf name = s.lockOf name) : s'.unlogged = s.unlogged := by
  have htables := tables_eq hlimits hindex hnext hcounters fun t ↦ hlock _
  have hregistries := registries_eq howners hroster fun r ↦ hlock _
  have hstorages := storages_eq hsize hcontent fun b ↦ hlock _
  simp only [unlogged, htables, hregistries, hstorages, hsessions]

end Store

/-! ### Changes -/

/-- What a transaction changes at its table, at its registry and of storage. -/
structure Change where
  /-- The keys that are taken out of the index, with the content that was under them. -/
  taken : List Key := []
  /-- The content of the storage that is set up, and the key that is put into the index for it. -/
  storage : Option (Content × Option Key) := none
  roster : Roster
  adds : Counter → UInt64

namespace Change

variable {c d : Change} {s s' s₁ s₂ u₁ u₂ : Store} {t : TableRef} {r q : RegistryRef}
  {logs : List Event} {k : Key} {b : StorageRef} {who : CallRef}

/-- The key that is put into the index, if there is any. -/
def placed? (c : Change) : Option Key := c.storage.bind Prod.snd

/-- What a change makes of the content of a storage that was there before. -/
def contentOf (c : Change) (s : Store) (t : TableRef) (b : StorageRef) : Content :=
  if ∃ k ∈ c.taken, (s.indexOf t)[k]? = some b then .gone else s.contentOf b

/-- What a change leaves behind; a number is drawn for the key that is put into the index. -/
@[simps -fullyApplied] def aftermath (c : Change) (s : Store) (t : TableRef) (logs : List Event) :
    Aftermath where
  index := match c.placed? with
    | some key => ((s.indexOf t).without c.taken).insert key s.storages.size
    | none => (s.indexOf t).without c.taken
  nextId := if c.placed?.isSome then ⟨(s.nextIdOf t).number + 1⟩ else s.nextIdOf t
  roster := c.roster
  storages := if c.storage.isSome then s.storages.size + 1 else s.storages.size
  content := match c.storage with
    | some (content, _) => Function.update (c.contentOf s t) s.storages.size content
    | none => c.contentOf s t
  lock := s.lockOf
  adds := c.adds
  logs := logs

/-- The key that is put into the index has its storage. -/
theorem isSome_storage (h : c.placed? = some k) : c.storage.isSome = true := by
  obtain ⟨p, hp, -⟩ := Option.bind_eq_some_iff.mp h
  rw [hp]
  rfl

/-- A change that takes nothing out leaves the content of storage as it is. -/
theorem contentOf_of_taken (h : c.taken = []) : c.contentOf s t = s.contentOf := by
  funext b
  simp [contentOf, h]

theorem getElem?_index (c : Change) (s : Store) (t : TableRef) (logs : List Event) (k : Key) :
    (c.aftermath s t logs).index[k]? =
      if c.placed? = some k then some s.storages.size
      else if k ∈ c.taken then none else (s.indexOf t)[k]? := by
  cases hp : c.placed? with
  | none => simp [hp, Index.getElem?_without]
  | some p => simp [hp, Index.getElem?_insert, Index.getElem?_without]

/-- A change to which none is added of the keys of another leaves these as they are in the index. -/
private theorem getElem?_of_apart
    (h : s.Becomes who t r (c.aftermath s t logs) s') (hout : k ∉ c.taken)
    (hnew : c.placed? ≠ some k) : (s'.indexOf t)[k]? = (s.indexOf t)[k]? := by
  rw [h.index_self, getElem?_index, if_neg hnew, if_neg hout]

section Exchange

variable {w w' v v' : CallRef} {l l' m m' : List Event}
  (hs : s.Becomes w t r (c.aftermath s t l) s₁)
  (hs' : s₁.Becomes w' t q (d.aftermath s₁ t l') s₂)
  (hu : s.Becomes v t q (d.aftermath s t m) u₁)
  (hu' : u₁.Becomes v' t r (c.aftermath u₁ t m') u₂)
  (hd : d.storage = none)

include hd in
/-- A change that sets up no storage puts no key into the index. -/
private theorem placed?_eq_none : d.placed? = none := by
  rw [placed?, hd]
  rfl

include hu hd in
/-- A change that sets up no storage draws no number. -/
private theorem next_kept :
    u₁.nextIdOf t = s.nextIdOf t ∧ u₁.storages.size = s.storages.size := by
  rw [hu.nextId_self, hu.storages, aftermath_nextId, aftermath_storages, placed?_eq_none hd, hd]
  exact ⟨rfl, rfl⟩

include hs hs' hu hu' hd

private theorem index_exchange (hnew : ∀ k, c.placed? = some k → k ∉ d.taken)
    (u : TableRef) : s₂.indexOf u = u₂.indexOf u := by
  by_cases he : u = t
  · subst he
    apply Std.ExtTreeMap.ext_getElem?
    intro k
    rw [hs'.index_self, hu'.index_self, getElem?_index, getElem?_index, hs.index_self,
      hu.index_self, getElem?_index, getElem?_index, placed?_eq_none hd, (next_kept hu hd).2]
    by_cases hk : c.placed? = some k
    · simp [hk, hnew k hk]
    · simp only [hk, reduceCtorEq, if_false]
      split_ifs <;> rfl
  · rw [hs'.index, hs.index, hu'.index, hu.index, if_neg he, if_neg he, if_neg he, if_neg he]

private theorem nextId_exchange (u : TableRef) : s₂.nextIdOf u = u₂.nextIdOf u := by
  by_cases he : u = t
  · subst he
    rw [hs'.nextId_self, hu'.nextId_self, aftermath_nextId, aftermath_nextId, placed?_eq_none hd,
      hs.nextId_self, aftermath_nextId, (next_kept hu hd).1]
    rfl
  · rw [hs'.nextId, hs.nextId, hu'.nextId, hu.nextId, if_neg he, if_neg he, if_neg he, if_neg he]

private theorem content_exchange (hapart : ∀ k ∈ c.taken, k ∉ d.taken)
    (hnew : ∀ k, c.placed? = some k → k ∉ d.taken)
    (hstored : ∀ (k : Key) (b : StorageRef), (s.indexOf t)[k]? = some b → b < s.storages.size)
    (b : StorageRef) : s₂.contentOf b = u₂.contentOf b := by
  -- What one change takes out is under its keys also after the other.
  have hd' : (∃ k ∈ d.taken, (s₁.indexOf t)[k]? = some b) ↔
      ∃ k ∈ d.taken, (s.indexOf t)[k]? = some b :=
    exists_congr fun k ↦ and_congr_right fun hk ↦ by
      rw [getElem?_of_apart hs (fun hc ↦ hapart k hc hk) fun hplaced ↦ hnew k hplaced hk]
  have hc' : (∃ k ∈ c.taken, (u₁.indexOf t)[k]? = some b) ↔
      ∃ k ∈ c.taken, (s.indexOf t)[k]? = some b :=
    exists_congr fun k ↦ and_congr_right fun hk ↦ by
      rw [getElem?_of_apart hu (hapart k hk) (by simp [placed?_eq_none hd])]
  have hold (hb : b = s.storages.size) : ¬ ∃ k ∈ d.taken, (s.indexOf t)[k]? = some b := by
    rintro ⟨k, -, hk⟩
    exact absurd (hstored k b hk) (by simp [hb])
  rw [hs'.content, hu'.content, aftermath_content, aftermath_content, hd]
  cases hp : c.storage with
  | none =>
    simp only [contentOf, hs.content, hu.content, aftermath_content, hd, hp, hd', hc']
    split_ifs <;> rfl
  | some p =>
    by_cases hb : b = s.storages.size
    · simp only [contentOf, hs.content, aftermath_content, hp, hd', if_neg (hold hb)]
      simp [hb, (next_kept hu hd).2]
    · simp only [contentOf, hs.content, hu.content, aftermath_content, hd, hp, hd', hc',
        (next_kept hu hd).2, Function.update_of_ne hb]
      split_ifs <;> rfl

/-- Two changes with different registries, of which the second puts no key into the index and no
key is touched by both, leave the same whichever is made first. -/
theorem exchange (hne : r ≠ q) (hapart : ∀ k ∈ c.taken, k ∉ d.taken)
    (hnew : ∀ k, c.placed? = some k → k ∉ d.taken)
    (hstored : ∀ (k : Key) (b : StorageRef), (s.indexOf t)[k]? = some b → b < s.storages.size) :
    s₂.unlogged = u₂.unlogged := by
  apply Store.unlogged_eq
  case hlimits => rw [hs'.limits, hs.limits, hu'.limits, hu.limits]
  case howners => rw [hs'.owners, hs.owners, hu'.owners, hu.owners]
  case hsessions => rw [hs'.sessions, hs.sessions, hu'.sessions, hu.sessions]
  case hsize =>
    rw [hs'.storages, hu'.storages, aftermath_storages, aftermath_storages, hd, hs.storages,
      aftermath_storages, (next_kept hu hd).2]
    rfl
  case hindex => exact index_exchange hs hs' hu hu' hd hnew
  case hnext => exact nextId_exchange hs hs' hu hu' hd
  case hcounters =>
    intro u
    apply Counters.ext_get
    intro which
    rw [hs'.counters, hs.counters, hu'.counters, hu.counters]
    simp only [aftermath_adds]
    rw [UInt64.add_assoc, UInt64.add_assoc, UInt64.add_comm (if u = t then c.adds which else 0)]
  case hroster =>
    intro p
    simp only [hs'.roster, hs.roster, hu'.roster, hu.roster, aftermath_roster]
    by_cases hr : p = r
    · subst hr
      simp [hne]
    · simp [hr]
  case hcontent => exact content_exchange hs hs' hu hu' hd hapart hnew hstored
  case hlock =>
    intro name
    rw [hs'.lock, hu'.lock, aftermath_lock, aftermath_lock, hs.lock, hu.lock, aftermath_lock,
      aftermath_lock]

end Exchange

end Change

/-! ### Transactions -/

/-- What a registry can be asked to do at a table. -/
inductive Transaction where
  | allocate (user kernel : UInt64)
  | free (id : BufferId)
  | teardown
  deriving DecidableEq

/-- The key that a registry is given when a number is drawn for it now. -/
def Store.nextKey (s : Store) (t : TableRef) (r : RegistryRef) : Key :=
  ⟨s.sessionOf r, s.nextIdOf t⟩

/-- One count of one counter. -/
def Counter.once (which other : Counter) : UInt64 := if which = other then 1 else 0

instance (f : Removal) (s : Store) : Decidable (f.Owns s) :=
  inferInstanceAs (Decidable (_ = true ∧ _ = true))

namespace Transaction

variable {supply : Supply} {s s' : Store} {t : TableRef} {r q : RegistryRef} {e : Transaction}
  {k : Key}

/-- A transaction as a client asks for it. -/
def request (t : TableRef) (r : RegistryRef) : Transaction → Request
  | allocate user kernel => .allocate t r user kernel
  | free id => .free t r id
  | teardown => .teardown t r

def isAllocation : Transaction → Bool
  | allocate _ _ => true
  | _ => false

/-- What a transaction comes to, and what it changes, unless the key that it is given is in use. -/
def comesTo (supply : Supply) (s : Store) (t : TableRef) (r : RegistryRef) :
    Transaction → Outcome × Change
  | allocate user kernel =>
    if (s.limitsOf t).permits user kernel && supply.regions user kernel then
      if supply.slot user kernel then
        (.handle ⟨s.nextKey t r, s.storages.size⟩, {
          storage := some (.zeroed user kernel, some (s.nextKey t r))
          roster := (s.rosterOf r).add (s.nextKey t r)
          adds := Counter.once .allocations })
      else
        (.refused (.allocationFailed user kernel), {
          storage := some (.zeroed user kernel, none)
          roster := s.rosterOf r
          adds := Counter.once .allocationFailures })
    else
      (.refused (.allocationFailed user kernel), {
        roster := s.rosterOf r
        adds := Counter.once .allocationFailures })
  | free id =>
    let f : Removal := ⟨t, r, ⟨s.sessionOf r, id⟩⟩
    if f.Owns s then
      (.done, {
        taken := [f.key]
        roster := (s.rosterOf r).remove f.key
        adds := Counter.once .frees })
    else
      (.refused (.notFound f.key), {
        roster := s.rosterOf r
        adds := Counter.once .freeMisses })
  | teardown =>
    let d : Teardown := ⟨t, r, s.sessionOf r⟩
    (.number (d.found s), {
      taken := d.listed s
      roster := { closed := true }
      adds := (d.torn s).adds })

/-! ### What settles a transaction -/

/-- What a transaction takes out is listed. -/
theorem contains_of_taken (h : k ∈ (e.comesTo supply s t r).2.taken) :
    (s.rosterOf r).contains k = true := by
  cases e with
  | allocate user kernel =>
    simp only [comesTo] at h
    split at h <;> (try split at h) <;> cases h
  | free id =>
    simp only [comesTo] at h
    split at h
    · next howns =>
      obtain rfl := List.mem_singleton.mp h
      exact howns.2
    · cases h
  | teardown => exact Roster.mem_toList.mp h

/-- Only an allocation puts a key into the index, and it is the next. -/
theorem of_placed (h : (e.comesTo supply s t r).2.placed? = some k) :
    e.isAllocation = true ∧ k = s.nextKey t r := by
  cases e with
  | allocate user kernel =>
    simp only [comesTo] at h
    split at h <;> (try split at h) <;> cases h
    exact ⟨rfl, rfl⟩
  | free id =>
    simp only [comesTo] at h
    split at h <;> cases h
  | teardown => cases h

/-- Only an allocation sets up storage. -/
theorem storage_eq_none (h : e.isAllocation = false) :
    (e.comesTo supply s t r).2.storage = none := by
  cases e with
  | allocate user kernel => cases h
  | free id =>
    simp only [comesTo]
    split <;> rfl
  | teardown => rfl

/-- What a transaction comes to depends on its registry, on what the index has under the keys listed
there, and, if it is an allocation, on the number and the storage that come next. -/
theorem comesTo_congr (supply : Supply) (e : Transaction) (hlimits : s'.limitsOf t = s.limitsOf t)
    (hsession : s'.sessionOf r = s.sessionOf r) (hroster : s'.rosterOf r = s.rosterOf r)
    (hindex : ∀ k, (s.rosterOf r).contains k = true → (s'.indexOf t)[k]? = (s.indexOf t)[k]?)
    (hnext : e.isAllocation = true →
      s'.nextIdOf t = s.nextIdOf t ∧ s'.storages.size = s.storages.size) :
    e.comesTo supply s' t r = e.comesTo supply s t r := by
  have hcontains (k : Key) (hk : (s.rosterOf r).contains k = true) :
      (s'.indexOf t).contains k = (s.indexOf t).contains k := by
    rw [Bool.eq_iff_iff, Index.contains_iff, Index.contains_iff, hindex k hk]
  cases e with
  | allocate user kernel =>
    obtain ⟨hid, hsize⟩ := hnext rfl
    simp only [comesTo, Store.nextKey, hlimits, hsession, hroster, hid, hsize]
  | free id =>
    have howns : Removal.Owns ⟨t, r, ⟨s.sessionOf r, id⟩⟩ s' ↔
        Removal.Owns ⟨t, r, ⟨s.sessionOf r, id⟩⟩ s := by
      simp only [Removal.Owns, hroster]
      exact and_congr_left fun hk ↦ by rw [hcontains _ hk]
    simp only [comesTo, hsession, hroster, howns]
  | teardown =>
    have hlisted : Teardown.listed ⟨t, r, s.sessionOf r⟩ s' =
        Teardown.listed ⟨t, r, s.sessionOf r⟩ s := by
      simp only [Teardown.listed, hroster]
    have hfound : Teardown.found ⟨t, r, s.sessionOf r⟩ s' =
        Teardown.found ⟨t, r, s.sessionOf r⟩ s := by
      rw [Teardown.found, Teardown.found, hlisted]
      exact congrArg List.length (List.filter_congr fun k hk ↦
        hcontains k (Roster.mem_toList.mp hk))
    simp only [comesTo, hsession, hlisted, hfound, Teardown.torn, hroster]

end Transaction

/-! ### Transactions run by themselves -/

/-- Whether a table is free, and so is all content that its index leads to. -/
structure Store.Quiet (s : Store) (t : TableRef) : Prop where
  table : s.lock? (.table t) = some .free
  contents : ∀ (k : Key) (b : StorageRef), (s.indexOf t)[k]? = some b →
    s.lock? (.content b) = some .free

namespace Transaction

variable {supply : Supply} {s s' : Service} {store store' : Store} {t : TableRef}
  {r q : RegistryRef} {x y : Transaction} {who : CallRef} {c : Change} {logs : List Event}
  {k : Key} {b : StorageRef}

/-- A change that takes nothing out and puts nothing in is one of a counter. -/
private theorem aftermath_counted (s : Store) (t : TableRef) (r : RegistryRef) (which : Counter)
    (event : Event) :
    Change.aftermath { roster := s.rosterOf r, adds := Counter.once which } s t [event] =
      ((s.untouched t r).counted which 1).logged event := by
  ext1
  case content => simp [Change.aftermath, Change.contentOf_of_taken]
  case adds =>
    funext other
    simp [Change.aftermath, Counter.once]
  all_goals rfl

/-- An allocation without room for its key sets up storage for nothing. -/
private theorem aftermath_crowded (a : Allocation) (s : Store) :
    Change.aftermath { storage := some (.zeroed a.user a.kernel, none)
                       roster := s.rosterOf a.registry
                       adds := Counter.once .allocationFailures }
      s a.table [.allocateFailed a.session a.user a.kernel a.unmet] = a.crowded s := by
  ext1
  case content => simp [Change.aftermath, Change.contentOf_of_taken, Allocation.crowded]
  case adds =>
    funext which
    simp [Change.aftermath, Allocation.crowded, Counter.once]
  all_goals rfl

/-- An allocation that ends with a handle puts a key into the index. -/
private theorem aftermath_granted (a : Allocation) (s : Store) :
    Change.aftermath { storage := some (.zeroed a.user a.kernel, some (a.nextKey s))
                       roster := (s.rosterOf a.registry).add (a.nextKey s)
                       adds := Counter.once .allocations }
      s a.table [.allocated (a.nextKey s) a.user a.kernel] = a.granted s := by
  ext1
  case content => simp [Change.aftermath, Change.contentOf_of_taken, Allocation.granted]
  case adds =>
    funext which
    simp [Change.aftermath, Allocation.granted, Counter.once]
  all_goals rfl

/-- A free that has found its buffer takes a key out. -/
private theorem aftermath_freed (f : Removal) (s : Store)
    (hb : (s.indexOf f.table)[f.key]? = some b) :
    Change.aftermath { taken := [f.key]
                       roster := (s.rosterOf f.registry).remove f.key
                       adds := Counter.once .frees }
      s f.table [.freed f.key] = f.freed s b := by
  ext1
  case content =>
    funext c
    simp [Change.aftermath, Change.contentOf, Removal.freed, hb, Function.update_apply,
      eq_comm (a := b)]
  case adds =>
    funext which
    simp [Change.aftermath, Removal.freed, Counter.once]
  all_goals rfl

/-- Whether a transaction can be run by itself: its locks are free, and the key that it is given is
not in use. -/
structure Ready (s : Store) (t : TableRef) (r : RegistryRef) (e : Transaction) : Prop where
  quiet : s.Quiet t
  registry : s.lock? (.registry r) = some .free
  fresh : e.isAllocation = true → (s.indexOf t)[s.nextKey t r]? = none

/-- Whether a transaction comes to what it should when it is run by itself, and makes its change. -/
def Succeeds (supply : Supply) (s : Service) (t : TableRef) (r : RegistryRef) (e : Transaction) :
    Prop :=
  ∃ s' logs, s.Completes supply (e.request t r) (e.comesTo supply s.store t r).1 s' ∧
    s.store.Becomes s.calls.size t r ((e.comesTo supply s.store t r).2.aftermath s.store t logs)
      s'.store

private theorem succeeds_allocate {user kernel : UInt64}
    (h : (allocate user kernel).Ready s.store t r) (supply : Supply) :
    (allocate user kernel).Succeeds supply s t r := by
  have ha : s.Allocates supply ⟨t, r, s.store.sessionOf r, user, kernel⟩ :=
    Service.allocates_of_free h.quiet.table h.registry rfl
  simp only [Succeeds, comesTo]
  split
  · next hmet =>
    have hmet : ¬ s.Unmet supply ⟨t, r, s.store.sessionOf r, user, kernel⟩ := by
      rw [Bool.and_eq_true] at hmet
      rw [Service.unmet_iff]
      simp [hmet.1, hmet.2]
    split
    · next hslot =>
      obtain ⟨s', hc, hbecomes, -⟩ := ha.fresh hmet hslot (h.fresh rfl)
      rw [← aftermath_granted] at hbecomes
      exact ⟨s', _, hc, hbecomes⟩
    · next hslot =>
      obtain ⟨s', hc, hbecomes⟩ := ha.crowded hmet (Bool.eq_false_iff.mpr hslot)
      rw [← aftermath_crowded] at hbecomes
      exact ⟨s', _, hc, hbecomes⟩
  · next hunmet =>
    have hunmet : s.Unmet supply ⟨t, r, s.store.sessionOf r, user, kernel⟩ := by
      rw [Bool.and_eq_true, not_and_or] at hunmet
      rw [Service.unmet_iff]
      simpa using hunmet
    obtain ⟨s', hc, hbecomes⟩ := ha.unmet hunmet
    rw [Allocation.refused, ← aftermath_counted] at hbecomes
    exact ⟨s', _, hc, hbecomes⟩

private theorem succeeds_free {id : BufferId} (h : (free id).Ready s.store t r) (supply : Supply) :
    (free id).Succeeds supply s t r := by
  have hf : s.Frees supply ⟨t, r, ⟨s.store.sessionOf r, id⟩⟩ :=
    Service.frees_of_free rfl h.quiet.table h.registry fun b hb _ ↦ h.quiet.contents _ b hb
  simp only [Succeeds, comesTo]
  split
  · next howns =>
    obtain ⟨b, s', hb, hc, hbecomes, -⟩ := hf.freed howns
    rw [← aftermath_freed _ _ hb] at hbecomes
    exact ⟨s', _, hc, hbecomes⟩
  · next hnot =>
    obtain ⟨s', hc, hbecomes⟩ := hf.missed hnot
    rw [Removal.missed, ← aftermath_counted] at hbecomes
    exact ⟨s', _, hc, hbecomes⟩

private theorem succeeds_teardown (h : teardown.Ready s.store t r) (supply : Supply) :
    teardown.Succeeds supply s t r := by
  obtain ⟨ht, hlt⟩ := Store.has_of_lock? h.quiet.table
  obtain ⟨hr, hlr⟩ := Store.has_of_lock? h.registry
  obtain ⟨_, hreaches⟩ := Teardown.reaches_torn (d := ⟨t, r, s.store.sessionOf r⟩) s.calls.size
    ht hr hlt hlr fun k _ b hb ↦ Store.has_of_lock? (h.quiet.contents k b hb)
  have hjob : Job.ofRequest? s.store (.teardown t r) = some
      (.tearingDown ⟨t, r, s.store.sessionOf r⟩ .lockRegistry) :=
    Job.ofRequest?_eq_some.mpr (.teardown ht hr)
  obtain ⟨s', hc, hbecomes⟩ := Service.completes_of_reaches rfl hjob hreaches rfl
  exact ⟨s', _, hc, hbecomes⟩

theorem Ready.succeeds {e : Transaction} (h : e.Ready s.store t r) (supply : Supply) :
    e.Succeeds supply s t r := by
  cases e with
  | allocate user kernel => exact succeeds_allocate h supply
  | free id => exact succeeds_free h supply
  | teardown => exact succeeds_teardown h supply

/-! ### After the transaction of another registry -/

section After

variable {s₁ : Store}

/-- A transaction leaves a table quiet. -/
private theorem quiet_after (h : store.Quiet t)
    (hb : store.Becomes who t q (c.aftermath store t logs) s₁) : s₁.Quiet t := by
  obtain ⟨ht, hlt⟩ := Store.has_of_lock? h.table
  constructor
  case table => exact hb.lock?_free rfl (hb.has_table.mpr ht) hlt
  case contents =>
    intro k b hk
    rw [hb.index_self, Change.getElem?_index] at hk
    split_ifs at hk with hplaced htaken
    · -- The new storage was not there before, so nobody had locked it.
      cases hk
      apply hb.lock?_free rfl
      · rw [hb.has_content, Change.aftermath_storages, if_pos (Change.isSome_storage hplaced)]
        exact Nat.lt_succ_self _
      · exact Store.lockOf_of_not_has (by simp [Store.has_content])
    · obtain ⟨hhas, hfree⟩ := Store.has_of_lock? (h.contents k b hk)
      rw [Store.has_content] at hhas
      apply hb.lock?_free rfl _ hfree
      rw [hb.has_content, Change.aftermath_storages]
      split
      · exact Nat.lt_succ_of_lt hhas
      · exact hhas

variable {y : Transaction}

/-- A transaction comes to the same after one with another registry that lists other keys, and that
is not given a key that is listed here. -/
private theorem comesTo_after (x : Transaction)
    (hb : store.Becomes who t q ((y.comesTo supply store t q).2.aftermath store t logs) s₁)
    (hne : r ≠ q) (hapart : ∀ k, (store.rosterOf r).contains k = true →
      (store.rosterOf q).contains k = false)
    (hnew : y.isAllocation = true → (store.rosterOf r).contains (store.nextKey t q) = false)
    (honly : x.isAllocation = true → y.isAllocation = false) :
    x.comesTo supply s₁ t r = x.comesTo supply store t r := by
  apply comesTo_congr supply x (hb.limitsOf t) (hb.sessionOf r)
  case hroster => rw [hb.roster, if_neg hne]
  case hnext => exact fun hx ↦ Change.next_kept hb (storage_eq_none (honly hx))
  case hindex =>
    intro k hk
    apply Change.getElem?_of_apart hb
    · intro htaken
      have hother := hapart k hk
      rw [contains_of_taken htaken] at hother
      cases hother
    · intro hplaced
      obtain ⟨hy, rfl⟩ := of_placed hplaced
      rw [hnew hy] at hk
      cases hk

/-- A transaction that can be run by itself can also be run after one with another registry. -/
private theorem Ready.after {x : Transaction} (h : x.Ready store t r)
    (hb : store.Becomes who t q ((y.comesTo supply store t q).2.aftermath store t logs) s₁)
    (honly : x.isAllocation = true → y.isAllocation = false) : x.Ready s₁ t r := by
  constructor
  case quiet => exact quiet_after h.quiet hb
  case registry =>
    obtain ⟨hr, hlr⟩ := Store.has_of_lock? h.registry
    exact hb.lock?_free rfl (hb.has_registry.mpr hr) hlr
  case fresh =>
    intro hx
    have hkey : s₁.nextKey t r = store.nextKey t r := by
      have hkept := Change.next_kept hb (storage_eq_none (honly hx))
      rw [Store.nextKey, Store.nextKey, hb.sessionOf, hkept.1]
    rw [hkey, hb.index_self, Change.getElem?_index,
      Change.placed?_eq_none (storage_eq_none (honly hx))]
    simp [h.fresh hx]

end After

end Transaction

namespace Service

/-- What is done with two registries that list different keys, also for one session, comes to the
same in either order, for each by itself and for all that is left behind but the log: a free, a
teardown or an allocation with the one, and a free or a teardown with the other. -/
theorem transactions_of_two_registries_commute (supply : Supply) (s : Service) (t : TableRef)
    (r q : RegistryRef) (x y : Transaction) (hne : r ≠ q) (hy : y.isAllocation = false)
    (hquiet : s.store.Quiet t) (hlr : s.store.lock? (.registry r) = some .free)
    (hlq : s.store.lock? (.registry q) = some .free)
    (hapart : ∀ k, (s.store.rosterOf r).contains k = true →
      (s.store.rosterOf q).contains k = false)
    (hnew : x.isAllocation = true → (s.store.indexOf t)[s.store.nextKey t r]? = none ∧
      (s.store.rosterOf q).contains (s.store.nextKey t r) = false) :
    ∃ o p s₁ s₂ u₁ u₂,
      s.Completes supply (x.request t r) o s₁ ∧ s₁.Completes supply (y.request t q) p s₂ ∧
      s.Completes supply (y.request t q) p u₁ ∧ u₁.Completes supply (x.request t r) o u₂ ∧
      s₂.store.unlogged = u₂.store.unlogged := by
  have hnoty (h : y.isAllocation = true) : False := by
    rw [hy] at h
    cases h
  have hapart' (k : Key) (hk : (s.store.rosterOf q).contains k = true) :
      (s.store.rosterOf r).contains k = false := by
    by_contra hcontains
    rw [hapart k (by simpa using hcontains)] at hk
    cases hk
  have hx : x.Ready s.store t r := ⟨hquiet, hlr, fun h ↦ (hnew h).1⟩
  have hy' : y.Ready s.store t q := ⟨hquiet, hlq, fun h ↦ (hnoty h).elim⟩
  obtain ⟨s₁, _, hc₁, hb₁⟩ := hx.succeeds supply
  obtain ⟨u₁, _, hd₁, hv₁⟩ := hy'.succeeds supply
  obtain ⟨s₂, _, hc₂, hb₂⟩ := (hy'.after hb₁ fun h ↦ (hnoty h).elim).succeeds supply
  obtain ⟨u₂, _, hd₂, hv₂⟩ := (hx.after hv₁ fun _ ↦ hy).succeeds supply
  have hsamey := Transaction.comesTo_after y hb₁ hne.symm hapart' (fun h ↦ (hnew h).2)
    fun h ↦ (hnoty h).elim
  have hsamex := Transaction.comesTo_after x hv₁ hne hapart (fun h ↦ (hnoty h).elim) fun _ ↦ hy
  rw [hsamey] at hc₂ hb₂
  rw [hsamex] at hd₂ hv₂
  refine ⟨_, _, s₁, s₂, u₁, u₂, hc₁, hc₂, hd₁, hd₂, ?_⟩
  apply Change.exchange hb₁ hb₂ hv₁ hv₂ (Transaction.storage_eq_none hy) hne
  case hapart =>
    intro k hk hk'
    have hlisted := hapart k (Transaction.contains_of_taken hk)
    rw [Transaction.contains_of_taken hk'] at hlisted
    cases hlisted
  case hnew =>
    intro k hplaced hk
    obtain ⟨hx, rfl⟩ := Transaction.of_placed hplaced
    have hlisted := Transaction.contains_of_taken hk
    rw [(hnew hx).2] at hlisted
    cases hlisted
  case hstored =>
    intro k b hb
    exact Store.has_content.mp (Store.has_of_lock? (hquiet.contents k b hb)).1

/-- Two registries of one session, each with a buffer. -/
def oneBufferEach : History :=
  History.allocated ⟨7⟩ 4 4 ++ History.call (.attach ⟨⟨7⟩, .alone 1⟩) 2 1 ++
    History.call (.allocate 0 1 4 4) 3 14

/-- One of two registries is torn down before or after the other allocates, and before or after the
other tries to free what is not its own. -/
theorem teardown_exchanged : ∃ s, (withTables [{}]).run? oneBufferEach = some s ∧
    s.store.sessionOf 0 = s.store.sessionOf 1 ∧
    ∀ x ∈ [Transaction.allocate 8 8, Transaction.free ⟨1⟩], ∃ o p s₁ s₂ u₁ u₂,
      s.Completes .addressable (x.request 0 0) o s₁ ∧
      s₁.Completes .addressable (.teardown 0 1) p s₂ ∧
      s.Completes .addressable (.teardown 0 1) p u₁ ∧
      u₁.Completes .addressable (x.request 0 0) o u₂ ∧
      s₂.store.unlogged = u₂.store.unlogged := by
  have hrun : ((withTables [{}]).run? oneBufferEach).map (fun s ↦
      ([s.store.lock? (.table 0), s.store.lock? (.registry 0), s.store.lock? (.registry 1),
        s.store.lock? (.content 0), s.store.lock? (.content 1)],
        [s.store.sessionOf 0, s.store.sessionOf 1],
        [(s.store.rosterOf 0).toList, (s.store.rosterOf 1).toList])) =
      some ([some .free, some .free, some .free, some .free, some .free], [⟨7⟩, ⟨7⟩],
        [[⟨⟨7⟩, ⟨0⟩⟩], [⟨⟨7⟩, ⟨1⟩⟩]]) := by
    decide +kernel
  have hindex : ((withTables [{}]).run? oneBufferEach).map (fun s ↦
      ((s.store.indexOf 0).toList, s.store.nextKey 0 0)) =
      some ([(⟨⟨7⟩, ⟨0⟩⟩, 0), (⟨⟨7⟩, ⟨1⟩⟩, 1)], ⟨⟨7⟩, ⟨2⟩⟩) := by
    decide +kernel
  obtain ⟨s, hs, hrun⟩ := Option.map_eq_some_iff.mp hrun
  rw [hs, Option.map_some, Option.some.injEq, Prod.mk.injEq] at hindex
  simp only [Prod.mk.injEq, List.cons.injEq, and_true] at hrun
  obtain ⟨⟨hlt, hlr, hlq, hlb, hlb'⟩, ⟨hsession, hsession'⟩, hroster, hroster'⟩ := hrun
  obtain ⟨hindex, hkey⟩ := hindex
  have hquiet : s.store.Quiet 0 := by
    refine ⟨hlt, fun k b hb ↦ ?_⟩
    rw [← Std.ExtTreeMap.mem_toList_iff_getElem?_eq_some, hindex] at hb
    simp only [List.mem_cons, Prod.mk.injEq, List.not_mem_nil, or_false] at hb
    obtain ⟨-, rfl⟩ | ⟨-, rfl⟩ := hb
    · exact hlb
    · exact hlb'
  refine ⟨s, hs, hsession.trans hsession'.symm, fun x _ ↦ ?_⟩
  apply transactions_of_two_registries_commute .addressable s 0 0 1 x .teardown (by decide) rfl
    hquiet hlr hlq
  case hapart =>
    intro k hk
    rw [← Roster.mem_toList, hroster, List.mem_singleton] at hk
    subst hk
    rw [← Bool.not_eq_true, ← Roster.mem_toList, hroster']
    decide
  case hnew =>
    intro _
    rw [hkey]
    constructor
    · rw [Option.eq_none_iff_forall_ne_some]
      intro b hb
      rw [← Std.ExtTreeMap.mem_toList_iff_getElem?_eq_some, hindex] at hb
      simp at hb
    · rw [← Bool.not_eq_true, ← Roster.mem_toList, hroster']
      decide

end Service

end SessionBuffers
