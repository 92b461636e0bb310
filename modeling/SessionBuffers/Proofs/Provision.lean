import SessionBuffers.Proofs.Aftermath
import SessionBuffers.Proofs.Notes

/-!
# What an allocation leaves behind

An allocation whose locks are free comes to one of three ends. It is refused before it has drawn a
number, and leaves a count and an event, and storage that nobody knows if only room for its key was
missing; or it draws a number whose key is in use, and has set up such storage as well; or its key
and its storage are new, and it adds the one to the index and to the roster (`Service.Allocates`).
So no entry of an index is ever overwritten, and all content is within the limits of the table in
which it was set up; that is where it stays, unless clients swap it for content of another table.
-/

namespace SessionBuffers

namespace Allocation

variable {a : Allocation} {supply : Supply} {who : CallRef} {job : Job} {s s' : Store}
  {m : Aftermath} {why : Failure} {b : StorageRef} {key : Key}

/-- The key that an allocation is given when it draws its number now. -/
def nextKey (a : Allocation) (s : Store) : Key := ⟨a.session, s.nextIdOf a.table⟩

/-- What an allocation leaves behind that is refused without having drawn a number. -/
def refused (a : Allocation) (s : Store) : Aftermath :=
  ((s.untouched a.table a.registry).counted .allocationFailures 1).logged
    (.allocateFailed a.session a.user a.kernel a.unmet)

/-- What an allocation leaves behind that has been given its storage, but no room for its key: no
number has been drawn, and no index leads to the storage. -/
def crowded (a : Allocation) (s : Store) : Aftermath :=
  (((s.untouched a.table a.registry).withStorage (.zeroed a.user a.kernel)).counted
    .allocationFailures 1).logged (.allocateFailed a.session a.user a.kernel a.unmet)

/-- What an allocation leaves behind whose key is in use: a number has been drawn, and storage set
up that no index leads to. -/
def duplicated (a : Allocation) (s : Store) : Aftermath :=
  (((s.untouched a.table a.registry).withStorage (.zeroed a.user a.kernel)).drawn.counted
    .allocationFailures 1).logged
    (.allocateFailed a.session a.user a.kernel (.duplicateKey (a.nextKey s)))

/-- What an allocation leaves behind that ends with a handle. -/
def granted (a : Allocation) (s : Store) : Aftermath :=
  (((((s.untouched a.table a.registry).withStorage (.zeroed a.user a.kernel)).drawn.withIndex
    ((s.indexOf a.table).insert (a.nextKey s) s.storages.size)).withRoster
    ((s.rosterOf a.registry).add (a.nextKey s))).counted .allocations 1).logged
    (.allocated (a.nextKey s) a.user a.kernel)

/-- An allocation that has failed counts it and says why. -/
private theorem reaches_refusal
    (h : Job.Reaches supply who a.table a.registry job s (.allocating a (.countFailure why)) m s')
    (ht : s.Has (.table a.table)) :
    ∃ s'', Job.Reaches supply who a.table a.registry job s (.allocating a (.ended (.refused why)))
      ((m.counted .allocationFailures 1).logged
        (.allocateFailed a.session a.user a.kernel why)) s'' := by
  obtain ⟨_, h⟩ := h.count rfl ht
  exact h.log rfl

private theorem reaches_provide (ht : s.Has (.table a.table))
    (hpermits : (s.limitsOf a.table).permits a.user a.kernel = true) :
    Job.Reaches supply who a.table a.registry (.allocating a .checkLimits) s
      (.allocating a .provide) (s.untouched a.table a.registry) s := by
  have h := (Job.Reaches.rest supply who a.table a.registry (.allocating a .checkLimits) s).consult
    rfl ht
  simpa [hpermits] using h

variable (who) in
/-- An allocation that is not met leaves a count and an event. -/
private theorem reaches_refused (ht : s.Has (.table a.table))
    (hunmet : (s.limitsOf a.table).permits a.user a.kernel = false ∨
      supply.regions a.user a.kernel = false) :
    ∃ s', Job.Reaches supply who a.table a.registry (.allocating a .checkLimits) s
      (.allocating a (.ended (.refused a.unmet))) (a.refused s) s' := by
  cases hpermits : (s.limitsOf a.table).permits a.user a.kernel with
  | false =>
    have h := (Job.Reaches.rest supply who a.table a.registry (.allocating a .checkLimits)
      s).consult rfl ht
    simp only [Function.comp_apply, hpermits, Bool.false_eq_true, if_false] at h
    exact reaches_refusal h ht
  | true =>
    have hregions := hunmet.resolve_left (by simp [hpermits])
    exact reaches_refusal ((reaches_provide ht hpermits).unprovided rfl hregions) ht

/-- What there is when an allocation is about to make room for its key: it holds its storage, its
registry and its table. -/
private def holding (a : Allocation) (who : CallRef) (s : Store) : Aftermath :=
  ((((s.untouched a.table a.registry).withStorage (.zeroed a.user a.kernel)).withLock
    (.content s.storages.size) (.exclusive who)).withLock
    (.registry a.registry) (.exclusive who)).withLock (.table a.table) (.exclusive who)

variable (who) in
/-- An allocation that is met comes to hold its locks. -/
private theorem reaches_reserve (ht : s.Has (.table a.table)) (hr : s.Has (.registry a.registry))
    (hlt : s.lockOf (.table a.table) = .free) (hlr : s.lockOf (.registry a.registry) = .free)
    (hpermits : (s.limitsOf a.table).permits a.user a.kernel = true)
    (hregions : supply.regions a.user a.kernel = true) :
    ∃ s', Job.Reaches supply who a.table a.registry (.allocating a .checkLimits) s
      (.allocating a (.reserve s.storages.size)) (a.holding who s) s' := by
  have hlb : s.lockOf (.content s.storages.size) = .free :=
    Store.lockOf_of_not_has (by simp [Store.has_content])
  obtain ⟨_, h⟩ := (reaches_provide ht hpermits).provided rfl hregions
  obtain ⟨_, h⟩ := h.acquire rfl (h.2.has_content.mpr (Nat.lt_succ_self _)) hlb
  obtain ⟨_, h⟩ := h.acquire rfl (h.2.has_registry.mpr hr) (by simpa using hlr)
  exact h.acquire rfl (h.2.has_table.mpr ht) (by simpa using hlt)

variable (who) in
/-- An allocation that is met and has room for its key comes to draw its number. -/
private theorem reaches_insert (ht : s.Has (.table a.table)) (hr : s.Has (.registry a.registry))
    (hlt : s.lockOf (.table a.table) = .free) (hlr : s.lockOf (.registry a.registry) = .free)
    (hpermits : (s.limitsOf a.table).permits a.user a.kernel = true)
    (hregions : supply.regions a.user a.kernel = true)
    (hslot : supply.slot a.user a.kernel = true) :
    ∃ s', Job.Reaches supply who a.table a.registry (.allocating a .checkLimits) s
      (.allocating a (.insert s.storages.size (a.nextKey s))) (a.holding who s).drawn s' := by
  obtain ⟨_, h⟩ := reaches_reserve who ht hr hlt hlr hpermits hregions
  exact (h.reserved rfl hr hslot).draw rfl ht

variable (who) in
/-- When the locks are given back, all locks are as they were. -/
private theorem lock_restored (hlt : s.lockOf (.table a.table) = .free)
    (hlr : s.lockOf (.registry a.registry) = .free) {lock : LockName → Lock}
    (hlock : ∀ name, lock name = if name = .content s.storages.size ∨
      name = .registry a.registry ∨ name = .table a.table then .free else
      (a.holding who s).lock name) : lock = s.lockOf := by
  have hlb : s.lockOf (.content s.storages.size) = .free :=
    Store.lockOf_of_not_has (by simp [Store.has_content])
  funext name
  rw [hlock]
  simp only [holding, Aftermath.withLock_lock, Aftermath.withStorage_lock,
    Store.untouched_lock, Function.update_apply]
  grind

/-- An allocation that gives up gives back what it holds, and fails. -/
private theorem reaches_abandoned
    (h : Job.Reaches supply who a.table a.registry job s
      (.allocating a (.abandonRegistry s.storages.size why)) m s')
    (ht : s.Has (.table a.table)) (hr : s.Has (.registry a.registry))
    (hlt : s.lockOf (.table a.table) = .free) (hlr : s.lockOf (.registry a.registry) = .free)
    (hm : m.storages = s.storages.size + 1) (hlock : m.lock = (a.holding who s).lock) :
    ∃ s'', Job.Reaches supply who a.table a.registry job s (.allocating a (.ended (.refused why)))
      (({ m with lock := s.lockOf }.counted .allocationFailures 1).logged
        (.allocateFailed a.session a.user a.kernel why)) s'' := by
  have hb : s.storages.size < m.storages := by omega
  obtain ⟨_, h⟩ := h.release rfl (h.2.has_registry.mpr hr) (by simp [hlock, holding])
  obtain ⟨_, h⟩ := h.release rfl (h.2.has_table.mpr ht) (by simp [hlock, holding])
  obtain ⟨_, h⟩ := h.release rfl (h.2.has_content.mpr hb) (by simp [hlock, holding])
  obtain ⟨_, h⟩ := reaches_refusal h ht
  refine ⟨_, h.of_eq (Aftermath.ext rfl rfl rfl rfl rfl (lock_restored who hlt hlr fun name ↦ ?_)
    rfl rfl)⟩
  simp only [Aftermath.logged_lock, Aftermath.counted_lock, Aftermath.withLock_lock, hlock,
    Function.update_apply]
  grind

variable (who) in
/-- An allocation without room for its key gives everything back and fails. -/
private theorem reaches_crowded (ht : s.Has (.table a.table))
    (hr : s.Has (.registry a.registry)) (hlt : s.lockOf (.table a.table) = .free)
    (hlr : s.lockOf (.registry a.registry) = .free)
    (hpermits : (s.limitsOf a.table).permits a.user a.kernel = true)
    (hregions : supply.regions a.user a.kernel = true)
    (hslot : supply.slot a.user a.kernel = false) :
    ∃ s', Job.Reaches supply who a.table a.registry (.allocating a .checkLimits) s
      (.allocating a (.ended (.refused a.unmet))) (a.crowded s) s' := by
  obtain ⟨_, h⟩ := reaches_reserve who ht hr hlt hlr hpermits hregions
  exact reaches_abandoned (h.unreserved rfl hr hslot) ht hr hlt hlr rfl rfl

variable (who) in
/-- An allocation whose key is in use gives everything back and fails. -/
private theorem reaches_duplicated (ht : s.Has (.table a.table))
    (hr : s.Has (.registry a.registry)) (hlt : s.lockOf (.table a.table) = .free)
    (hlr : s.lockOf (.registry a.registry) = .free)
    (hpermits : (s.limitsOf a.table).permits a.user a.kernel = true)
    (hregions : supply.regions a.user a.kernel = true)
    (hslot : supply.slot a.user a.kernel = true)
    (hkey : (s.indexOf a.table).contains (a.nextKey s) = true) :
    ∃ s', Job.Reaches supply who a.table a.registry (.allocating a .checkLimits) s
      (.allocating a (.ended (.refused (.duplicateKey (a.nextKey s))))) (a.duplicated s) s' := by
  obtain ⟨_, h⟩ := reaches_insert who ht hr hlt hlr hpermits hregions hslot
  exact reaches_abandoned (h.present rfl ht hkey) ht hr hlt hlr rfl rfl

variable (who) in
/-- An allocation whose key is new puts it into the index and records it, and ends with a handle. -/
private theorem reaches_granted (ht : s.Has (.table a.table))
    (hr : s.Has (.registry a.registry)) (hlt : s.lockOf (.table a.table) = .free)
    (hlr : s.lockOf (.registry a.registry) = .free)
    (hpermits : (s.limitsOf a.table).permits a.user a.kernel = true)
    (hregions : supply.regions a.user a.kernel = true)
    (hslot : supply.slot a.user a.kernel = true)
    (hkey : (s.indexOf a.table).contains (a.nextKey s) = false) :
    ∃ s', Job.Reaches supply who a.table a.registry (.allocating a .checkLimits) s
      (.allocating a (.ended (.handle ⟨a.nextKey s, s.storages.size⟩))) (a.granted s) s' := by
  obtain ⟨_, h⟩ := reaches_insert who ht hr hlt hlr hpermits hregions hslot
  obtain ⟨_, h⟩ := h.inserted rfl ht hkey
  obtain ⟨_, h⟩ := h.release rfl (h.2.has_table.mpr ht) (by simp [holding])
  obtain ⟨_, h⟩ := h.add rfl hr
  obtain ⟨_, h⟩ := h.release rfl (h.2.has_registry.mpr hr) (by simp [holding])
  obtain ⟨_, h⟩ := h.release rfl (h.2.has_content.mpr (Nat.lt_succ_self _)) (by simp [holding])
  obtain ⟨_, h⟩ := h.count rfl ht
  obtain ⟨_, h⟩ := h.log rfl
  refine ⟨_, h.of_eq (Aftermath.ext rfl rfl rfl rfl rfl (lock_restored who hlt hlr fun name ↦ ?_)
    rfl rfl)⟩
  simp only [Aftermath.logged_lock, Aftermath.counted_lock, Aftermath.withRoster_lock,
    Aftermath.withLock_lock, Aftermath.withIndex_lock, Aftermath.drawn_lock, Function.update_apply]
  grind

/-! ### Live buffers -/

/-- A step of an allocation keeps every entry of an index. -/
theorem onIndex_kept {phase : Phase} {instr : Instr Phase} {t : TableRef} {index : Index} {k : Key}
    (hp : a.progress phase = .next instr) (hk : index[k]? = some b) :
    (instr.onIndex t index)[k]? = some b := by
  cases phase with
  | insert c key =>
    cases hp
    simp only [Instr.onIndex]
    split_ifs with ht hpresent
    · exact hk
    · have hne : key ≠ k := by
        rintro rfl
        exact hpresent (Index.contains_iff.mpr ⟨b, hk⟩)
      rw [Index.getElem?_insert, if_neg hne, hk]
    · exact hk
  | ended o => cases hp
  | _ =>
    cases hp
    exact hk

/-- A step of an allocation gives up no content. -/
theorem onContent_kept {phase : Phase} {instr : Instr Phase} {content : Content}
    (hp : a.progress phase = .next instr) : instr.onContent b content = content := by
  cases phase <;> cases hp <;> rfl

end Allocation

/-- What stays within the limits of a table is permitted. -/
theorem Limits.permits_eq_false_iff {l : Limits} {user kernel : UInt64} :
    l.permits user kernel = false ↔ l.maxUser < user ∨ l.maxKernel < kernel := by
  simp [Limits.permits, UInt64.not_le, imp_iff_not_or]

/-- Whether both regions of some content are within the limits. -/
def Limits.Bounds (l : Limits) (c : Content) : Prop :=
  c.user.size ≤ l.maxUser.toNat ∧ c.kernel.size ≤ l.maxKernel.toNat

namespace Service

variable {limits : List Limits} {supply : Supply} {s s' : Service} {h : History} {t : TableRef}
  {r : RegistryRef} {i : CallRef} {a : Allocation} {k : Key} {b : StorageRef} {g : Handle}

/-- Whether the regions of an allocation cannot be had, by the limits of its table or by what is
supplied. -/
def Unmet (supply : Supply) (s : Service) (a : Allocation) : Prop :=
  (s.store.limitsOf a.table).maxUser < a.user ∨ (s.store.limitsOf a.table).maxKernel < a.kernel ∨
    supply.regions a.user a.kernel = false

/-- What a request to allocate comes to by itself, and all that it leaves behind. -/
structure Allocates (supply : Supply) (s : Service) (a : Allocation) : Prop where
  /-- It is refused with the sizes asked for, and no number is drawn. -/
  unmet : s.Unmet supply a → ∃ s',
    s.Completes supply (.allocate a.table a.registry a.user a.kernel)
      (.refused (.allocationFailed a.user a.kernel)) s' ∧
    s.store.Becomes s.calls.size a.table a.registry (a.refused s.store) s'.store
  /-- It is refused with the sizes asked for, and no number is drawn, when there is no room for the
  key. -/
  crowded : ¬ s.Unmet supply a → supply.slot a.user a.kernel = false → ∃ s',
    s.Completes supply (.allocate a.table a.registry a.user a.kernel)
      (.refused (.allocationFailed a.user a.kernel)) s' ∧
    s.store.Becomes s.calls.size a.table a.registry (a.crowded s.store) s'.store
  /-- A number is drawn, and the buffer that has its key stays what it is. -/
  duplicate : ¬ s.Unmet supply a → supply.slot a.user a.kernel = true →
    ∀ b, (s.store.indexOf a.table)[a.nextKey s.store]? = some b → ∃ s',
    s.Completes supply (.allocate a.table a.registry a.user a.kernel)
      (.refused (.duplicateKey (a.nextKey s.store))) s' ∧
    s.store.Becomes s.calls.size a.table a.registry (a.duplicated s.store) s'.store ∧
    (s'.store.indexOf a.table)[a.nextKey s.store]? = some b ∧
    (s.store.Has (.content b) → s'.store.contentOf b = s.store.contentOf b)
  /-- New storage, zeroed and of the sizes asked for, is found under a new key, and the roster lists
  this key beside those that it has listed before. -/
  fresh : ¬ s.Unmet supply a → supply.slot a.user a.kernel = true →
    (s.store.indexOf a.table)[a.nextKey s.store]? = none → ∃ s',
    s.Completes supply (.allocate a.table a.registry a.user a.kernel)
      (.handle ⟨a.nextKey s.store, s.store.storages.size⟩) s' ∧
    s.store.Becomes s.calls.size a.table a.registry (a.granted s.store) s'.store ∧
    (∀ b, s.store.Has (.content b) → s'.store.contentOf b = s.store.contentOf b) ∧
    (s'.store.contentOf s.store.storages.size).released = false ∧
    (s'.store.contentOf s.store.storages.size).user.toList = List.replicate a.user.toNat 0 ∧
    (s'.store.contentOf s.store.storages.size).kernel.toList = List.replicate a.kernel.toNat 0 ∧
    (s'.store.rosterOf a.registry).closed = (s.store.rosterOf a.registry).closed ∧
    ∀ k, (s'.store.rosterOf a.registry).contains k = true ↔
      a.nextKey s.store = k ∨ (s.store.rosterOf a.registry).contains k = true

theorem unmet_iff : s.Unmet supply a ↔
    (s.store.limitsOf a.table).permits a.user a.kernel = false ∨
      supply.regions a.user a.kernel = false := by
  rw [Unmet, Limits.permits_eq_false_iff, or_assoc]

/-- An allocation whose locks are free comes to one of its three ends. -/
theorem allocates_of_free (hlt : s.store.lock? (.table a.table) = some .free)
    (hlr : s.store.lock? (.registry a.registry) = some .free)
    (ha : a.session = s.store.sessionOf a.registry) : s.Allocates supply a := by
  obtain ⟨ht, hlt⟩ := Store.has_of_lock? hlt
  obtain ⟨hr, hlr⟩ := Store.has_of_lock? hlr
  have hjob : Job.ofRequest? s.store (.allocate a.table a.registry a.user a.kernel) =
      some (.allocating a .checkLimits) := by
    have hnew : Job.ofRequest? s.store (.allocate a.table a.registry a.user a.kernel) = some
        (.allocating ⟨a.table, a.registry, s.store.sessionOf a.registry, a.user, a.kernel⟩
          .checkLimits) := Job.ofRequest?_eq_some.mpr (.allocate ht hr)
    rwa [← ha] at hnew
  have hmet (h : ¬ s.Unmet supply a) : (s.store.limitsOf a.table).permits a.user a.kernel = true ∧
      supply.regions a.user a.kernel = true := by
    simpa [unmet_iff, not_or] using h
  have hkept (c : Content) {b : StorageRef} (hb : s.store.Has (.content b)) :
      Function.update s.store.contentOf s.store.storages.size c b = s.store.contentOf b :=
    Function.update_of_ne (Nat.ne_of_lt (Store.has_content.mp hb)) ..
  constructor
  case unmet =>
    intro hunmet
    obtain ⟨_, h⟩ := Allocation.reaches_refused s.calls.size ht (unmet_iff.mp hunmet)
    exact completes_of_reaches rfl hjob h rfl
  case crowded =>
    intro hunmet hslot
    obtain ⟨hpermits, hregions⟩ := hmet hunmet
    obtain ⟨_, h⟩ := Allocation.reaches_crowded s.calls.size ht hr hlt hlr hpermits hregions hslot
    exact completes_of_reaches rfl hjob h rfl
  case duplicate =>
    intro hunmet hslot b hb
    obtain ⟨hpermits, hregions⟩ := hmet hunmet
    obtain ⟨_, h⟩ := Allocation.reaches_duplicated s.calls.size ht hr hlt hlr hpermits
      hregions hslot (Index.contains_iff.mpr ⟨b, hb⟩)
    obtain ⟨s', hc, hbecomes⟩ := completes_of_reaches rfl hjob h rfl
    refine ⟨s', hc, hbecomes, ?_, fun hhas ↦ ?_⟩
    · rw [hbecomes.index_self]
      exact hb
    · rw [hbecomes.content]
      exact hkept _ hhas
  case fresh =>
    intro hunmet hslot hnone
    obtain ⟨hpermits, hregions⟩ := hmet hunmet
    obtain ⟨_, h⟩ := Allocation.reaches_granted s.calls.size ht hr hlt hlr hpermits
      hregions hslot (Index.not_contains_iff.mpr hnone)
    obtain ⟨s', hc, hbecomes⟩ := completes_of_reaches rfl hjob h rfl
    have hnew : s'.store.contentOf s.store.storages.size = .zeroed a.user a.kernel := by
      rw [hbecomes.content]
      exact Function.update_self ..
    have hroster : s'.store.rosterOf a.registry =
        (s.store.rosterOf a.registry).add (a.nextKey s.store) := hbecomes.roster_self
    refine ⟨s', hc, hbecomes, fun b hhas ↦ ?_, ?_, ?_, ?_, ?_, fun k ↦ ?_⟩
    · rw [hbecomes.content]
      exact hkept _ hhas
    · rw [hnew]
      rfl
    · simp [hnew, Content.zeroed]
    · simp [hnew, Content.zeroed]
    · rw [hroster]
      rfl
    · rw [hroster, Roster.contains_add]

/-! ### In every reachable state -/

/-- An allocation that has put its handle into the index was permitted. -/
private theorem permits_of_kept? {job : Job} {of : TableRef → Limits} {notes : List Note}
    (hl : job.Leaves of notes) (hk : job.kept? = some (a, g)) :
    (of a.table).permits a.user a.kernel = true := by
  unfold Job.kept? at hk
  split at hk <;> cases hk <;> exact hl.1

/-- The regions of live content that has been handed out are within the limits of the table in which
it was set up. -/
private theorem Reachable.bounds (hr : Reachable limits s) (hk : s.Keeps a g) {c : Content}
    (hsizes : a.Sizes c) : (s.store.limitsOf a.table).Bounds c := by
  obtain ⟨i, call, hc, hkept⟩ := hk
  obtain ⟨h, hrun⟩ := hr
  have hpermits := permits_of_kept? (Reachable.leaves hrun (job?_eq_some.mpr ⟨call, hc, rfl⟩)) hkept
  obtain ⟨huser, hkernel⟩ := hsizes
  simpa [Limits.permits, UInt64.le_iff_toNat_le, Limits.Bounds, huser, hkernel] using hpermits

/-- Whether the tables in which two storages were set up have the same limits. -/
def LimitedAlike (s : Service) (b c : StorageRef) : Prop :=
  ∀ a d g f, s.Keeps a g → s.Keeps d f → g.storage = b → f.storage = c →
    s.store.limitsOf a.table = s.store.limitsOf d.table

/-- Whether a storage has been handed out by an allocation in a table of these limits. -/
def LimitedBy (s : Service) (l : Limits) (b : StorageRef) : Prop :=
  ∃ a g, s.Keeps a g ∧ g.storage = b ∧ s.store.limitsOf a.table = l

theorem Sound.limitedBy_iff {l : Limits} (hs : s.Sound) (hk : s.Keeps a g) :
    s.LimitedBy l g.storage ↔ s.store.limitsOf a.table = l := by
  constructor
  · rintro ⟨d, f, hd, hf, hlimits⟩
    obtain ⟨rfl, -⟩ := hs.keeps_unique hk hd hf.symm
    exact hlimits
  · intro hlimits
    exact ⟨a, g, hk, rfl, hlimits⟩

/-- Swaps between storages of the same limits lead only to storages of these limits. -/
private theorem limitsOf_origin {pairs : List (StorageRef × StorageRef)} {d : Allocation}
    {f : Handle} (hs : s.Sound) (ht : s.Descends pairs)
    (halike : ∀ p ∈ pairs, s.LimitedAlike p.1 p.2) (hk : s.Keeps a g) (hd : s.Keeps d f)
    (horigin : f.storage = origin pairs g.storage) :
    s.store.limitsOf d.table = s.store.limitsOf a.table := by
  rw [← hs.limitedBy_iff hd, horigin]
  apply (origin_iff (P := s.LimitedBy (s.store.limitsOf a.table)) ?_ g.storage).mpr
  · exact (hs.limitedBy_iff hk).mpr rfl
  intro p hp
  obtain ⟨⟨x, e, hx, hxe⟩, ⟨y, e', hy, hye⟩⟩ := ht.handed p hp
  have hsame := halike p hp x y e e' hx hy hxe hye
  rw [← hxe, ← hye, hs.limitedBy_iff hx, hs.limitedBy_iff hy, hsame]

/-- Every buffer in an index is within the limits of the table in which its content was set up,
which are those of its own table if contents are only swapped between tables of the same limits. -/
private theorem bounds_of_indexed (hr : (withTables limits).run? h = some s)
    (hin : (s.store.indexOf t)[k]? = some b) :
    (∃ a g, s.Keeps a g ∧ g.storage = origin ((withTables limits).swaps h) b ∧
      (s.store.limitsOf a.table).Bounds (s.store.contentOf b)) ∧
    ((∀ p ∈ (withTables limits).swaps h, s.LimitedAlike p.1 p.2) →
      (s.store.limitsOf t).Bounds (s.store.contentOf b)) := by
  have hs : Reachable limits s := ⟨h, hr⟩
  have ht := descends_of_run hr
  obtain ⟨a, hk, rfl⟩ := hs.sound.kept hin
  obtain ⟨d, f, hd, horigin, hsizes⟩ := ht.sized ⟨a, _, hk, rfl⟩ (hs.sound.live hin)
  have hbounds := hs.bounds hd hsizes
  refine ⟨⟨d, f, hd, horigin, hbounds⟩, fun halike ↦ ?_⟩
  rwa [← limitsOf_origin hs.sound ht halike hk hd horigin]

/-- No step of an allocation overwrites what an index leads to. -/
private theorem Sound.entry_kept {phase : Allocation.Phase} (hs : s.Sound)
    (hj : s.job? i = some (.allocating a phase)) (hact : s.act? supply (.step i) = some s')
    (hin : (s.store.indexOf t)[k]? = some b) :
    (s'.store.indexOf t)[k]? = some b ∧ s'.store.contentOf b = s.store.contentOf b := by
  obtain ⟨_, next, hn, hr, -⟩ := (does_of_act? hact).job_step hj
  obtain ⟨instr, hp, rfl⟩ := Progress.map_eq_next.mp hn
  obtain ⟨x, hx, -⟩ := Instr.run_map_eq_some.mp hr
  have hc := Instr.changes_of_run hx
  rw [hc.index, hc.content b (Store.has_of_unreleased (hs.live hin))]
  exact ⟨Allocation.onIndex_kept hp hin, Allocation.onContent_kept hp⟩

/-- A buffer is allocated, and the number that its table draws next is set by hand. -/
def setTo (number : UInt64) : History :=
  History.allocated ⟨7⟩ 4 4 ++ [(.addressable, .setNextId 0 ⟨number⟩)]

/-- A client allocates a buffer in each of two tables, gets both of them for writing, and swaps
their contents. -/
def swappedAcross : History :=
  History.allocated ⟨7⟩ 8 8 ++ .call (.allocate 1 0 4 4) 2 14 ++
    .call (.lookup 0 ⟨⟨7⟩, ⟨0⟩⟩ .exclusive) 3 5 ++ .call (.lookup 1 ⟨⟨7⟩, ⟨0⟩⟩ .exclusive) 4 5 ++
      [(.addressable, .swap 3 4)]

end Service

end SessionBuffers
