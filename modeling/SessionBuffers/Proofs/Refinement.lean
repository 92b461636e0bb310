import SessionBuffers.Proofs.Matching
import SessionBuffers.Proofs.Sequence

/-!
# A table is a plain map of buffers

A client that makes one call after the other cannot tell a table from a plain map of buffers
(`Service.refines_ledger`): the ledger matches what there is to see of the service between any two
of its calls (`Ledger.Describes`), and every errand brings the same receipt of both.
-/

namespace SessionBuffers

/-! ### Ledgers and services -/

namespace Ledger

/-- How a ledger goes with a store in which nothing is owed. -/
def Shows (l : Ledger) (store : Store) : Prop := l.Matches (Service.ideal { store })

/-- How a ledger goes with a service in which no call is under way. -/
structure Describes (l : Ledger) (s : Service) : Prop where
  reachable : ∃ limits, Service.Reachable limits s
  idle : s.Idle
  shows : l.Shows s.store
  sessions : s.store.sessions = l.sessions
  issued : ∀ h, s.hasIssued h = true ↔ h ∈ l.handles

open Service

variable {limits : List Limits} {supply : Supply} {s s' : Service} {l l₁ l' : Ledger} {p : Ideal}
  {k : History} {o : Outcome} {request : Request} {job next last : Job} {store store' : Store}
  {i : CallRef} {m : Nat} {handle : Handle} {g : Guard}

/-- The calls of a service do not matter. -/
theorem Shows.ideal (h : l.Shows s.store) : l.Matches s.ideal :=
  ⟨h.limits, h.registries, h.nextId, h.index, h.roster, h.bytes, h.born, h.serial⟩

/-- What the client has been told does not show. -/
theorem Shows.remember (h : l.Shows store) (sessions : Array Session) (handles : List Handle) :
    Shows { l with sessions, handles } store :=
  ⟨h.limits, h.registries, h.nextId, h.index, h.roster, h.bytes, h.born, h.serial⟩

/-- What matches the ideal state that goes with a service is shown by its store. -/
theorem Matches.shows (h : l.Matches p) (hc : s.Coupled k p) (hs : s.Sound) (hidle : s.Idle) :
    l.Shows s.store where
  limits := hc.limits.symm.trans h.limits
  registries := hc.sessions.symm.trans h.registries
  nextId := (hc.nextId 0).symm.trans h.nextId
  index := (hc.index_of_idle hidle 0).symm.trans h.index
  roster r key := by
    rw [← h.roster, hc.roster_of_idle hidle]
    rfl
  bytes key e he := by
    have hin : (s.store.indexOf 0)[key]? = some e.serial := by
      rw [← hc.index_of_idle hidle, h.getElem?_index, he]
      rfl
    rw [← h.bytes key e he, hc.content_of_idle hidle (hs.live hin)]
    rfl
  born b := by
    rw [← h.born, hc.mem_born_iff hidle, Store.has_content]
    exact List.mem_range
  serial := h.serial

theorem Shows.has_table (h : l.Shows store) {t : TableRef} : store.Has (.table t) ↔ t = 0 := by
  have hsize : store.tables.size = 1 := by simpa [Service.ideal] using congrArg Array.size h.limits
  rw [Store.has_table, hsize, Nat.lt_one_iff]

theorem Shows.size_registries (h : l.Shows store) : store.registries.size = l.registries.size := by
  simpa [Service.ideal] using congrArg Array.size h.registries

theorem Shows.has_registry (h : l.Shows store) {r : RegistryRef} :
    store.Has (.registry r) ↔ r < l.registries.size := by
  rw [Store.has_registry, h.size_registries]

theorem Shows.limitsOf (h : l.Shows store) : store.limitsOf 0 = l.limits := by
  have htable : store.tables[0]?.map Table.limits = some l.limits :=
    (Array.getElem?_map ..).symm.trans (congrArg (·[0]?) h.limits)
  rw [Store.limitsOf, htable]
  rfl

/-- What a table leads to exists. -/
theorem Shows.has_content (h : l.Shows store) {key : Key} {e : Entry}
    (he : l.buffers[key]? = some e) : store.Has (.content e.serial) :=
  Store.has_content.mpr (List.mem_range.mp ((h.born e.serial).mpr (h.serial key e he)))

/-- A step that changes nothing but locks, sessions, counters and the log shows the same. -/
theorem Shows.still {σ : Type} {x : σ} {instr : Instr σ} {who : CallRef} (h : l.Shows store)
    (hr : instr.run supply who store = some (x, store')) (hstill : instr.isStill = true) :
    l.Shows store' := by
  have hframe := Instr.sameFrame_of_run hr (Instr.makes_of_isStill hstill)
  have hchanges := Instr.changes_of_run hr
  obtain ⟨hi, hn, hro, hc⟩ := Instr.kept_of_isStill hstill
  constructor
  case limits => exact hframe.limits.trans h.limits
  case registries => exact hframe.sessions.trans h.registries
  case nextId => exact (hchanges.nextId 0).trans ((hn _ _).trans h.nextId)
  case index => exact (hchanges.index 0).trans ((hi _ _).trans h.index)
  case roster =>
    intro r key
    rw [← h.roster]
    exact iff_of_eq (congrArg (·.contains key = true) ((hchanges.roster r).trans (hro _ _)))
  case bytes =>
    intro key e he
    rw [← h.bytes key e he]
    exact congrArg _ ((hchanges.content _ (h.has_content he)).trans (hc _ _))
  case born =>
    intro b
    rw [← h.born]
    simp only [Service.ideal, hframe.storages]
  case serial => exact h.serial

/-- A registry that is set up is one more. -/
theorem Shows.enroll (h : l.Shows store) (session : SessionId) :
    Shows { l with registries := l.registries.push session }
      { store with registries := store.registries.push { session } } where
  limits := h.limits
  registries := (Array.map_push ..).trans (congrArg (·.push session) h.registries)
  nextId := h.nextId
  index := h.index
  roster r key := by
    refine (iff_of_eq ?_).trans (h.roster r key)
    exact congrArg (·.contains key = true) (Store.rosterOf_push_registry store { session } rfl r)
  bytes := h.bytes
  born := h.born
  serial := h.serial

/-- Content is edited as the bytes of its buffer are. -/
theorem Shows.setSide (h : l.Shows store) {key : Key} {e : Entry} {b : StorageRef}
    {storage : Storage} (he : l.buffers[key]? = some e) (hserial : e.serial = b)
    (hstorage : store.storages[b]? = some storage)
    (hdistinct : ∀ (k : Key) (e' : Entry), l.buffers[k]? = some e' → e'.serial = b → k = key)
    (which : Side) (region : Region) :
    Shows { l with buffers :=
        l.buffers.insert key { e with bytes := (storage.content.setSide which region).bytes } }
      (store.setContent b (storage.content.setSide which region)) := by
  have hkept {α : Type} (view : Entry → α)
      (hview : view { e with bytes := (storage.content.setSide which region).bytes } = view e)
      (k : Key) : (l.buffers.insert key
        { e with bytes := (storage.content.setSide which region).bytes })[k]?.map view =
          l.buffers[k]?.map view := by
    rw [getElem?_insert]
    split
    · next hk => rw [← hk, he, Option.map_some, Option.map_some, hview]
    · rfl
  constructor
  case limits => exact h.limits
  case registries => exact h.registries
  case nextId => exact h.nextId
  case index =>
    refine h.index.trans (Std.ExtTreeMap.ext_getElem? fun k ↦ ?_)
    rw [Std.ExtTreeMap.getElem?_map, Std.ExtTreeMap.getElem?_map]
    exact (hkept Entry.serial rfl k).symm
  case roster =>
    intro r k
    rw [owner?, hkept Entry.owner rfl]
    exact h.roster r k
  case bytes =>
    intro k e' he'
    refine (congrArg Content.bytes (Store.contentOf_setContent
      (Store.has_content_iff.mpr ⟨storage, hstorage⟩) _ _)).trans ?_
    rw [getElem?_insert] at he'
    split at he'
    · cases he'
      exact congrArg Content.bytes (if_pos hserial.symm)
    · next hk =>
      rw [if_neg fun hsame ↦ hk (hdistinct k e' he' hsame.symm).symm]
      exact h.bytes k e' he'
  case born =>
    intro b
    rw [← h.born]
    simp [Service.ideal, Store.setContent, Store.modifyStorage]
  case serial =>
    intro k e' he'
    obtain ⟨e₁, he₁, hsame⟩ := Option.map_eq_some_iff.mp
      ((hkept Entry.serial rfl k).symm.trans (congrArg (Option.map Entry.serial) he'))
    exact hsame ▸ h.serial k e₁ he₁

namespace Describes

/-- When no guard is held either, every lock is free. -/
theorem admits (h : l.Describes s) (hfree : ∀ i, s.guard? i = none) (name : LockName)
    (mode : Mode) : (s.store.lockOf name).admits mode = true := by
  obtain ⟨limits, hr⟩ := h.reachable
  by_contra hfull
  obtain ⟨j, m, hheld⟩ := Lock.exists_holds_of_not_admits (Bool.not_eq_true _ ▸ hfull)
  obtain ⟨g, hguard, -⟩ := h.idle.guard?_of_holds hr.sound.locked hheld
  cases (hfree j).symm.trans hguard

/-- A handle whose content is live is found under its key. -/
theorem entry_of_live (h : l.Describes s) {a : Allocation} (hk : s.Keeps a handle)
    (hlive : (s.store.contentOf handle.storage).released = false) :
    ∃ e, l.buffers[handle.key]? = some e ∧ e.serial = handle.storage := by
  obtain ⟨limits, hr⟩ := h.reachable
  have hs := hr.sound
  obtain ⟨j, call, hcall, hkept⟩ := hk
  obtain ⟨o, ho, hout⟩ := h.idle.outcome? (job?_eq_some.mpr ⟨call, hcall, rfl⟩)
  obtain rfl := Job.outcome_of_kept? hkept ho
  have hin : ∃ (t : TableRef) (key : Key), (s.store.indexOf t)[key]? = some handle.storage := by
    by_contra hnone
    refine Bool.false_ne_true (hlive.symm.trans ((hr.released_iff h.idle
      (Store.has_of_unreleased hlive)).mpr ⟨⟨j, handle, hout, rfl⟩, fun t key hin ↦ ?_⟩))
    exact hnone ⟨t, key, hin⟩
  obtain ⟨t, key, hin⟩ := hin
  obtain ⟨c, hkeeps, -⟩ := hs.kept hin
  obtain ⟨-, hsame⟩ := hs.keeps_unique ⟨j, call, hcall, hkept⟩ hkeeps rfl
  obtain rfl : handle.key = key := congrArg Handle.key hsame
  have ht : s.store.Has (.table t) := by
    rw [Store.has_table_iff]
    cases ht : s.store.tables[t]? with
    | none => simp [Store.indexOf, ht] at hin
    | some table => exact ⟨table, rfl⟩
  obtain rfl := h.shows.has_table.mp ht
  obtain ⟨e, he, hserial⟩ := Option.map_eq_some_iff.mp ((h.shows.getElem?_index _).symm.trans hin)
  exact ⟨e, he, hserial⟩

/-- What has been handed out exists. -/
theorem has_handle (h : l.Describes s) (hissued : s.hasIssued handle = true) :
    (∃ a, s.Keeps a handle) ∧ s.store.Has (.content handle.storage) := by
  obtain ⟨limits, hr⟩ := h.reachable
  obtain ⟨a, hk⟩ := hr.sound.keeps_of_hasIssued hissued
  obtain ⟨j, call, hcall, hkept⟩ := id hk
  exact ⟨⟨a, hk⟩, hr.sound.made hcall (Job.made?_of_kept? hkept)⟩

/-- What a ledger answers can be asked of the service. -/
theorem begins (h : l.Describes s) (hask : l.ask? supply request = some (o, l')) :
    s.allows (.invoke request) = true ∧ ∃ job, Job.ofRequest? s.store request = some job := by
  have ht : s.store.Has (.table 0) := h.shows.has_table.mpr rfl
  have hregistry {r : RegistryRef} {session : SessionId} (hr : l.registries[r]? = some session) :
      s.store.Has (.registry r) :=
    h.shows.has_registry.mpr (Array.getElem?_eq_some_iff.mp hr).1
  cases request with
  | attach a =>
    refine ⟨rfl, _, Job.ofRequest?_eq_some.mpr (.attach fun t hp ↦ ?_)⟩
    obtain _ | t := t
    · exact ht
    · obtain ⟨capacity, hc, -⟩ := Option.map_eq_some_iff.mp hask
      obtain hp | hp := hp <;> rw [hp] at hc <;> cases hc
  | allocate t r user kernel =>
    obtain _ | t := t
    · obtain ⟨session, hr, -⟩ := Option.map_eq_some_iff.mp hask
      exact ⟨rfl, _, Job.ofRequest?_eq_some.mpr (.allocate ht (hregistry hr))⟩
    · cases hask
  | free t r id =>
    obtain _ | t := t
    · obtain ⟨session, hr, -⟩ := Option.map_eq_some_iff.mp hask
      exact ⟨rfl, _, Job.ofRequest?_eq_some.mpr (.free ht (hregistry hr))⟩
    · cases hask
  | teardown t r =>
    obtain _ | t := t
    · obtain ⟨session, hr, -⟩ := Option.map_eq_some_iff.mp hask
      exact ⟨rfl, _, Job.ofRequest?_eq_some.mpr (.teardown ht (hregistry hr))⟩
    · cases hask
  | endSession c =>
    obtain ⟨limits, hr⟩ := h.reachable
    obtain ⟨session, hc, -⟩ := Option.map_eq_some_iff.mp hask
    rw [← h.sessions] at hc
    exact ⟨rfl, _, Job.ofRequest?_eq_some.mpr (.endSession hc (hr.scoped.sessions c session hc).2)⟩
  | lookup t key mode =>
    obtain _ | t := t
    · exact ⟨rfl, _, Job.ofRequest?_eq_some.mpr (.lookup ht)⟩
    · cases hask
  | access handle mode =>
    simp only [ask?] at hask
    split at hask
    · next hin =>
      have hissued := (h.issued handle).mpr hin
      exact ⟨hissued, _, Job.ofRequest?_eq_some.mpr (.access (h.has_handle hissued).2)⟩
    · cases hask
  | inspect t question =>
    obtain _ | t := t
    · exact ⟨rfl, _, Job.ofRequest?_eq_some.mpr (.inspect ht)⟩
    · cases hask
  | roster r action =>
    simp only [ask?] at hask
    split at hask
    · next hr =>
      exact ⟨rfl, _, Job.ofRequest?_eq_some.mpr (.roster (h.shows.has_registry.mpr hr))⟩
    · cases hask
  | draw t =>
    obtain _ | t := t
    · exact ⟨rfl, _, Job.ofRequest?_eq_some.mpr (.draw ht)⟩
    · cases hask

/-- What can be asked of the service is answered by the ledger. -/
theorem exists_answer (h : l.Describes s) (hkeeps : request.keepsRosters = true)
    (ha : s.allows (.invoke request) = true) (hj : Job.ofRequest? s.store request = some job)
    (supply : Supply) : ∃ o l', l.ask? supply request = some (o, l') := by
  have hregistry {r : RegistryRef} (hr : s.store.Has (.registry r)) :
      ∃ session, l.registries[r]? = some session :=
    ⟨_, Array.getElem?_eq_getElem (h.shows.has_registry.mp hr)⟩
  cases Job.ofRequest?_eq_some.mp hj with
  | @attach a ht =>
    have hc : ∃ capacity, l.capacity? a.purpose = some capacity := by
      cases hp : a.purpose with
      | alone capacity => exact ⟨capacity, rfl⟩
      | table t =>
        obtain rfl := h.shows.has_table.mp (ht t (.inl hp))
        exact ⟨_, rfl⟩
      | session t =>
        obtain rfl := h.shows.has_table.mp (ht t (.inr hp))
        exact ⟨_, rfl⟩
    obtain ⟨capacity, hc⟩ := hc
    exact ⟨_, _, Option.map_eq_some_iff.mpr ⟨capacity, hc, rfl⟩⟩
  | allocate ht hr | free ht hr | teardown ht hr =>
    obtain rfl := h.shows.has_table.mp ht
    obtain ⟨session, hr⟩ := hregistry hr
    exact ⟨_, _, Option.map_eq_some_iff.mpr ⟨session, hr, rfl⟩⟩
  | endSession hc hr =>
    rw [h.sessions] at hc
    exact ⟨_, _, Option.map_eq_some_iff.mpr ⟨_, hc, rfl⟩⟩
  | lookup ht | inspect ht | draw ht =>
    obtain rfl := h.shows.has_table.mp ht
    exact ⟨_, _, rfl⟩
  | @access handle mode _ => exact ⟨_, _, if_pos ((h.issued handle).mp ha)⟩
  | @roster r action hr =>
    have hread : ∃ o, l.read? r action = some o := by
      cases action with
      | add key | remove key | drain => cases hkeeps
      | contains key | tryContains key | keys | size => exact ⟨_, rfl⟩
    obtain ⟨o, ho⟩ := hread
    refine ⟨o, l, ?_⟩
    simp only [ask?]
    rw [if_pos (h.shows.has_registry.mp hr), ho]
    rfl

end Describes

/-! ### One call -/

/-- The storages in use are numbered without a gap before a call and after it, so what the call sets
up is the next one. -/
private theorem Matches.eq_made (h : l.Matches p) {b : StorageRef}
    (hc : s.Coupled k (p.after (.call i supply b request))) (hidle : s.Idle) (hb : b ∉ p.born)
    (hborn : b ∈ (p.effect supply b request).2.born) : b = l.made := by
  have hle : l.made ≤ b := Nat.le_of_not_lt fun hlt ↦ hb ((h.born b).mpr hlt)
  have hsize : b < s.store.storages.size :=
    Store.has_content.mp ((hc.mem_born_iff hidle).mp hborn)
  have hmade := (hc.mem_born_iff hidle).mpr (Store.has_content.mpr (Nat.lt_of_le_of_lt hle hsize))
  obtain hold | hnew := Ideal.mem_born_effect hmade
  · exact absurd ((h.born _).mp hold) (Nat.lt_irrefl _)
  · exact hnew.symm

/-- One more call has ended, and the ledger after it shows what it has left. -/
structure Accords (l : Ledger) (s : Service) (o : Outcome) (l' : Ledger) (s' : Service) : Prop where
  calls : ∃ last : Job, s'.calls = s.calls.push { job := last } ∧ last.outcome? = some o
  shows : l'.Shows s'.store
  sessions : s'.store.sessions = l'.sessions
  handles : l'.handles = l.handles

/-- The ledger describes the service after the client has been told. -/
theorem Accords.describes (ha : l.Accords s o l' s') (h : l.Describes s)
    (hr : ∃ limits, Reachable limits s') : (l'.told o).Describes s' := by
  obtain ⟨last, hcalls, ho⟩ := ha.calls
  have hidle : s'.Idle := by
    rintro j ⟨job, hj, hnone⟩
    simp only [job?, hcalls, Array.getElem?_push] at hj
    split at hj
    · cases hj
      cases ho.symm.trans hnone
    · exact h.idle j ⟨job, hj, hnone⟩
  have hissued (handle : Handle) :
      s'.hasIssued handle = true ↔ o = .handle handle ∨ handle ∈ l'.handles := by
    rw [ha.handles, ← h.issued]
    simp [hasIssued, hcalls, ho, or_comm]
  cases o with
  | handle handle =>
    refine ⟨hr, hidle, ha.shows.remember l'.sessions (handle :: l'.handles), ha.sessions,
      fun other ↦ ?_⟩
    rw [hissued, Outcome.handle.injEq, eq_comm]
    exact List.mem_cons.symm
  | _ =>
    exact ⟨hr, hidle, ha.shows, ha.sessions, fun other ↦ by simpa [Ledger.told] using hissued other⟩

/-- Of the guards only that of the latest call is new. -/
theorem Accords.guard? (ha : l.Accords s o l' s') (hfree : ∀ i, s.guard? i = none) (j : CallRef) :
    s'.guard? j = if j = s.calls.size then o.guard? else none := by
  obtain ⟨last, hcalls, ho⟩ := ha.calls
  simp only [Service.guard?, hcalls, Array.getElem?_push]
  split
  · simp only [Option.bind_eq_bind, Option.bind_some, Call.guard?, ho]
    cases o <;> rfl
  · exact hfree j

/-- A call that makes a few steps by itself ends as they say. -/
private theorem accords_of_walks (ha : s.allows (.invoke request) = true)
    (hj : Job.ofRequest? s.store request = some job)
    (hw : Job.Walks supply s.calls.size m job s.store last store) (ho : last.outcome? = some o)
    (hshows : l'.Shows store) (hsessions : store.sessions = l'.sessions)
    (hhandles : l'.handles = l.handles) :
    ∃ s', s.Completes supply request o s' ∧ l.Accords s o l' s' :=
  ⟨_, completes_of_walks ha hj hw ho, ⟨last, rfl, ho⟩, hshows, hsessions, hhandles⟩

namespace Describes

/-- Every call has come to an outcome. -/
private theorem exists_outcome (h : l.Describes s) {call : Call} (hcall : s.calls[i]? = some call) :
    ∃ o, call.job.outcome? = some o := by
  obtain ⟨o, ho, -⟩ := h.idle.outcome? (job?_eq_some.mpr ⟨call, hcall, rfl⟩)
  exact ⟨o, ho⟩

/-- One more call that has still everything to do brings no guard. -/
private theorem granted?_push (h : l.Describes s) (hfree : ∀ i, s.guard? i = none)
    (hnew : next.Untouched store) (j : CallRef) :
    granted? ⟨store, s.calls.push { job := next }⟩ j = none := by
  by_contra hsome
  obtain ⟨g, hg⟩ := Option.ne_none_iff_exists'.mp hsome
  obtain ⟨call, hcall, hdropped, hgranted⟩ := granted?_eq_some.mp hg
  simp only [Array.getElem?_push] at hcall
  split at hcall
  · cases hcall
    cases hnew.granted?.symm.trans hgranted
  · obtain ⟨o, ho⟩ := h.exists_outcome hcall
    obtain rfl := Job.outcome_of_granted? hgranted ho
    cases (hfree j).symm.trans (guard?_eq_some.mpr ⟨call, hcall,
      Call.guard?_eq_some.mpr ⟨hdropped, ho⟩⟩)

/-- A call ends as the ledger says when, after some steps, it has come to where a call begins that
takes effect at one moment. -/
private theorem completes_of_untouched (h : l.Describes s) (hfree : ∀ i, s.guard? i = none)
    (ha : s.allows (.invoke request) = true) (hj : Job.ofRequest? s.store request = some job)
    (hw : Job.Walks supply s.calls.size m job s.store next store) (hnew : next.Untouched store)
    (hshows : l₁.Shows store) (hsame : store.sessions = l₁.sessions)
    (hhandles : l₁.handles = l.handles) (hask : l₁.ask? supply next.request = some (o, l')) :
    ∃ s', s.Completes supply request o s' ∧ l.Accords s o l' s' := by
  obtain ⟨limits, hr⟩ := h.reachable
  have hrun₁ : s.run? ((supply, .invoke request) :: List.replicate m (supply, .step s.calls.size)) =
      some ⟨store, s.calls.push { job := next }⟩ :=
    run?_cons_eq_some.mpr ⟨ha, { s with calls := s.calls.push { job } },
      by simp [act?, invoke?, hj], run?_of_walks hw⟩
  have hr₁ := hr.run hrun₁
  obtain ⟨n, s', last, b, hrun, hcalls, ho, hidle, hsessions, hb, hc⟩ :=
    hr₁.ends rfl (fun _ _ hcall ↦ h.exists_outcome hcall) (h.granted?_push hfree hnew) hnew supply
  have hmatches : l₁.Matches (ideal ⟨store, s.calls.push { job := next }⟩) := hshows.ideal
  have halike := hmatches.effect hnew.atomic hask (hmatches.eq_made hc hidle hb)
  have hlast : last.outcome? = some o := ho.trans (congrArg some halike.outcome)
  refine ⟨s', ⟨m + n, ?_, ?_⟩, ⟨last, hcalls, hlast⟩, ?_,
    hsessions.trans (hsame.trans halike.sessions.symm), halike.handles.trans hhandles⟩
  · rw [← List.replicate_append_replicate, ← List.cons_append, run?_append, hrun₁]
    exact hrun
  · simp [Service.outcome?, hcalls, hlast]
  · exact (halike.next.after s.calls.size).shows hc (hr₁.run hrun).sound hidle

/-- A lock that is free is given. -/
private theorem acquires (h : l.Describes s) (hfree : ∀ i, s.guard? i = none) (name : LockName)
    (mode : Mode) (who : CallRef) : ∃ k, (s.store.lockOf name).acquire? who mode = some k :=
  Option.isSome_iff_exists.mp ((Lock.isSome_acquire? ..).trans (h.admits hfree name mode))

/-- An access finds the content live exactly when its key leads to it. -/
private theorem live_iff (h : l.Describes s) (hin : handle ∈ l.handles) :
    (s.store.contentOf handle.storage).released = false ↔
      l.buffers[handle.key]?.map Entry.serial = some handle.storage := by
  obtain ⟨limits, hr⟩ := h.reachable
  obtain ⟨⟨a, hkeeps⟩, -⟩ := h.has_handle ((h.issued handle).mpr hin)
  constructor
  · intro hlive
    obtain ⟨e, he, hserial⟩ := h.entry_of_live hkeeps hlive
    rw [he, Option.map_some, hserial]
  · intro hentry
    exact hr.sound.live ((h.shows.getElem?_index handle.key).trans hentry)

/-- The content is locked and read, and given back when it is found released. -/
private theorem access (h : l.Describes s) (hfree : ∀ i, s.guard? i = none) {mode : Mode}
    (hin : handle ∈ l.handles) (supply : Supply) :
    ∃ s', s.Completes supply (.access handle mode) (l.access handle mode) s' ∧
      l.Accords s (l.access handle mode) l s' := by
  have hissued := (h.issued handle).mpr hin
  have hhas := (h.has_handle hissued).2
  have hj : Job.ofRequest? s.store (.access handle mode) = _ :=
    Job.ofRequest?_eq_some.mpr (.access hhas)
  obtain ⟨k, hk⟩ := h.acquires hfree (.content handle.storage) mode s.calls.size
  let locked := s.store.setLock (.content handle.storage) k
  have hlocked : locked.Has (.content handle.storage) := (Store.has_setLock ..).mpr hhas
  have hlock : (Instr.acquire (.content handle.storage) mode
      (Job.accessing ⟨handle, mode⟩ .check)).run supply s.calls.size s.store = some (_, locked) :=
    Instr.run_acquire.mpr ⟨hhas, k, hk, rfl, rfl⟩
  have hread : (Instr.readContent handle.storage fun content ↦ Job.accessing ⟨handle, mode⟩
      (if content.released then .unlockReleased else .ended (.guard ⟨handle, mode⟩))).run supply
        s.calls.size locked = some (_, locked) := Instr.run_readContent.mpr ⟨hlocked, rfl, rfl⟩
  have hshows : l.Shows locked := h.shows.still hlock rfl
  have hsessions : locked.sessions = l.sessions := (Store.sessions_setLock ..).trans h.sessions
  rw [show locked.contentOf handle.storage = s.store.contentOf handle.storage from
    Store.contentOf_setLock ..] at hread
  cases hlive : (s.store.contentOf handle.storage).released with
  | false =>
    rw [hlive] at hread
    rw [Ledger.access, if_pos ((h.live_iff hin).mp hlive)]
    exact accords_of_walks hissued hj (.step rfl hlock (.step rfl hread .rest)) rfl hshows
      hsessions rfl
  | true =>
    rw [hlive] at hread
    have hrelease : (Instr.release (.content handle.storage)
        (Job.accessing ⟨handle, mode⟩ (.ended (.refused (.notFound handle.key))))).run supply
          s.calls.size locked = some (_, _) := Instr.run_release.mpr ⟨hlocked, rfl, rfl⟩
    have hgone : ¬ l.buffers[handle.key]?.map Entry.serial = some handle.storage := fun hentry ↦ by
      have hlive' := (h.live_iff hin).mpr hentry
      rw [hlive] at hlive'
      cases hlive'
    rw [Ledger.access, if_neg hgone]
    exact accords_of_walks hissued hj (.step rfl hlock (.step rfl hread (.step rfl hrelease .rest)))
      rfl (hshows.still hrelease rfl) ((Store.sessions_setLock ..).trans hsessions) rfl

/-- A registry that nobody holds can tell at once. -/
private theorem tryContains (h : l.Describes s) (hfree : ∀ i, s.guard? i = none) {r : RegistryRef}
    (hr : r < l.registries.size) (key : Key) (supply : Supply) :
    ∃ s', s.Completes supply (.roster r (.tryContains key)) (.flag (l.owner? key = some r)) s' ∧
      l.Accords s (.flag (l.owner? key = some r)) l s' := by
  have hhas := h.shows.has_registry.mpr hr
  have hj : Job.ofRequest? s.store (.roster r (.tryContains key)) = _ :=
    Job.ofRequest?_eq_some.mpr (.roster hhas)
  obtain ⟨k, hk⟩ := h.acquires hfree (.registry r) .exclusive s.calls.size
  let c : RosterCall := ⟨r, s.store.sessionOf r, .tryContains key⟩
  let locked := s.store.setLock (.registry r) k
  have hlocked : locked.Has (.registry r) := (Store.has_setLock ..).mpr hhas
  have hlock : (Instr.tryAcquire (.registry r) .exclusive (Job.editing c .act)
      (Job.editing c (.ended .busy))).run supply s.calls.size s.store = some (_, locked) :=
    Instr.run_tryAcquire.mpr ⟨hhas, .inl ⟨k, hk, rfl, rfl⟩⟩
  have hread : (Instr.readRoster r fun roster ↦
      Job.editing c (.unlock (.flag (roster.contains key)))).run supply s.calls.size locked =
        some (_, locked) := Instr.run_readRoster.mpr ⟨hlocked, rfl, rfl⟩
  rw [show locked.rosterOf r = s.store.rosterOf r from Store.rosterOf_setLock ..] at hread
  have hrelease : (Instr.release (.registry r) (Job.editing c (.ended
      (.flag ((s.store.rosterOf r).contains key))))).run supply s.calls.size locked =
        some (_, _) := Instr.run_release.mpr ⟨hlocked, rfl, rfl⟩
  have hasked : l.read? r (.tryContains key) = some (.flag (l.owner? key = some r)) := rfl
  have hanswer : Outcome.flag ((s.store.rosterOf r).contains key) = .flag (l.owner? key = some r) :=
    (h.shows.read hasked).1
  rw [← hanswer]
  exact accords_of_walks rfl hj (.step rfl hlock (.step rfl hread (.step rfl hrelease .rest))) rfl
    ((h.shows.still hlock rfl).still hrelease rfl)
    ((Store.sessions_setLock ..).trans ((Store.sessions_setLock ..).trans h.sessions)) rfl

/-- A session is set up around a registry that has just been attached. -/
private theorem openSession (h : l.Describes s) (session : SessionId) (supply : Supply) :
    ∃ s', s.Completes supply (.attach ⟨session, .session 0⟩)
        (l.attach supply ⟨session, .session 0⟩ l.limits.sessionCapacity).1 s' ∧
      l.Accords s (l.attach supply ⟨session, .session 0⟩ l.limits.sessionCapacity).1
        (l.attach supply ⟨session, .session 0⟩ l.limits.sessionCapacity).2 s' := by
  have ht : s.store.Has (.table 0) := h.shows.has_table.mpr rfl
  let a : Attachment := ⟨session, .session 0⟩
  let r := s.store.registries.size
  have hj : Job.ofRequest? s.store (.attach a) = _ :=
    Job.ofRequest?_eq_some.mpr (.attach fun t hp ↦ by
      obtain hp | hp := hp <;> cases hp
      exact ht)
  have hconsult : (Instr.consult 0 fun limits ↦ Job.attaching a
      (.enroll 0 limits.sessionCapacity)).run supply s.calls.size s.store =
        some (Job.attaching a (.enroll 0 l.limits.sessionCapacity), s.store) :=
    Instr.run_consult.mpr ⟨ht, by rw [h.shows.limitsOf], rfl⟩
  let refusal : Job :=
    .attaching a (.ended (.refused (Supply.rosterFailure l.limits.sessionCapacity)))
  simp only [attach]
  cases hgiven : supply.roster l.limits.sessionCapacity with
  | false =>
    have henroll : (Instr.enroll session l.limits.sessionCapacity
        (fun r ↦ Job.attaching a (.count 0 r)) refusal).run supply s.calls.size s.store =
          some (_, s.store) := Instr.run_enroll.mpr (.inr ⟨hgiven, rfl, rfl⟩)
    rw [if_neg Bool.false_ne_true]
    exact accords_of_walks rfl hj (.step rfl hconsult (.step rfl henroll .rest)) rfl h.shows
      h.sessions rfl
  | true =>
    let enrolled : Store := { s.store with registries := s.store.registries.push { session } }
    have henroll : (Instr.enroll session l.limits.sessionCapacity
        (fun r ↦ Job.attaching a (.count 0 r)) refusal).run supply s.calls.size s.store =
          some (_, enrolled) := Instr.run_enroll.mpr (.inl ⟨hgiven, rfl, rfl⟩)
    let counted : Store := enrolled.count 0 .sessionsOpened 1
    have hcount : (Instr.count 0 .sessionsOpened 1 (Job.attaching a (.report 0 r))).run supply
        s.calls.size enrolled = some (_, counted) := Instr.run_count.mpr ⟨ht, rfl, rfl⟩
    let logged : Store :=
      { counted with log := counted.log.push (s.calls.size, .sessionAttached session) }
    have hlog : (Instr.log (.sessionAttached session) (Job.attaching a (.open 0 r))).run supply
        s.calls.size counted = some (_, logged) := Instr.run_log.mpr ⟨rfl, rfl⟩
    have hopen : (Instr.open 0 r fun c ↦ Job.attaching a (.ended (.session c))).run supply
        s.calls.size logged = some (_, _) := Instr.run_open.mpr ⟨rfl, rfl⟩
    have hshows := (((h.shows.enroll session).still hcount rfl).still hlog rfl).still hopen rfl
    rw [if_pos rfl, ← h.sessions, ← h.shows.size_registries]
    exact accords_of_walks rfl hj (.step rfl hconsult (.step rfl henroll (.step rfl hcount
      (.step rfl hlog (.step rfl hopen .rest))))) rfl
      (hshows.remember (s.store.sessions.push ⟨0, r, false⟩) l.handles) rfl rfl

/-- A session that has not ended is marked as ended before it is torn down. -/
private theorem endSession (h : l.Describes s) (hfree : ∀ i, s.guard? i = none) {c : SessionRef}
    {session : Session} (hc : l.sessions[c]? = some session) (supply : Supply) :
    ∃ s', s.Completes supply (.endSession c) (l.endSession c session).1 s' ∧
      l.Accords s (l.endSession c session).1 (l.endSession c session).2 s' := by
  rw [← h.sessions] at hc
  obtain ⟨limits, hr⟩ := h.reachable
  obtain ⟨ht, hregistry⟩ := hr.scoped.sessions c session hc
  let d : Teardown :=
    ⟨session.table, session.registry, s.store.sessionOf session.registry⟩
  have hj : Job.ofRequest? s.store (.endSession c) = some (Job.tearingDown d (.finish c)) :=
    Job.ofRequest?_eq_some.mpr (.endSession hc hregistry)
  cases hended : session.ended with
  | true =>
    have hfinish : (Instr.finish c (Job.tearingDown d .lockRegistry)
        (Job.tearingDown d (.ended (.number 0)))).run supply s.calls.size s.store =
          some (_, s.store) :=
      Instr.run_finish.mpr ⟨session, hc, .inl ⟨hended, rfl, rfl⟩⟩
    rw [Ledger.endSession, if_pos hended]
    exact accords_of_walks rfl hj (.step rfl hfinish .rest) rfl h.shows h.sessions rfl
  | false =>
    have hfinish : (Instr.finish c (Job.tearingDown d .lockRegistry)
        (Job.tearingDown d (.ended (.number 0)))).run supply s.calls.size s.store =
          some (Job.tearingDown d .lockRegistry, s.store.endSession c) :=
      Instr.run_finish.mpr ⟨session, hc, .inr ⟨hended, rfl, rfl⟩⟩
    have hnew : (Job.tearingDown d .lockRegistry).Untouched (s.store.endSession c) :=
      ⟨rfl, trivial, fun _ _ _ hw ↦ by (cases hw), rfl, rfl, rfl, rfl⟩
    obtain ⟨session', hsession'⟩ : ∃ session', l.registries[session.registry]? = some session' :=
      ⟨_, Array.getElem?_eq_getElem (h.shows.has_registry.mp hregistry)⟩
    rw [Ledger.endSession, if_neg (Bool.not_eq_true _ ▸ hended)]
    have hmarked : (s.store.endSession c).sessions =
        l.sessions.modify c fun session ↦ { session with ended := true } := by
      rw [← h.sessions]
      rfl
    refine h.completes_of_untouched hfree rfl hj (.step rfl hfinish .rest) hnew
      ((h.shows.still hfinish rfl).remember _ l.handles) hmarked rfl ?_
    change Ledger.ask? supply _ (.teardown session.table session.registry) = _
    rw [h.shows.has_table.mp ht]
    exact Option.map_eq_some_iff.mpr ⟨_, hsession', rfl⟩

/-- A call comes to the outcome that the ledger says. -/
theorem completes (h : l.Describes s) (hfree : ∀ i, s.guard? i = none)
    (hask : l.ask? supply request = some (o, l')) :
    ∃ s', s.Completes supply request o s' ∧ l.Accords s o l' s' := by
  obtain ⟨ha, job, hj⟩ := h.begins hask
  cases hatomic : request.isAtomic with
  | true =>
    obtain ⟨rfl, hnamed, hindex, hroster, hborn, howes, hanswer⟩ :=
      Job.begins_of_ofRequest? hatomic hj
    refine h.completes_of_untouched hfree ha hj .rest
      ⟨hatomic, hnamed, howes, hindex, hroster, hborn, hanswer.resolve_right ?_⟩ h.shows h.sessions
      rfl hask
    rintro ⟨r, key, hrequest, -, -⟩
    rw [hrequest] at hask
    simp only [ask?] at hask
    split at hask <;> cases hask
  | false =>
    cases request with
    | attach a =>
      obtain ⟨session, purpose⟩ := a
      obtain _ | t | t := purpose
      · cases hatomic
      · cases hatomic
      · obtain ⟨capacity, hc, he⟩ := Option.map_eq_some_iff.mp hask
        obtain _ | t := t
        · cases hc
          obtain ⟨rfl, rfl⟩ := Prod.ext_iff.mp he
          exact h.openSession session supply
        · cases hc
    | endSession c =>
      obtain ⟨session, hc, he⟩ := Option.map_eq_some_iff.mp hask
      obtain ⟨rfl, rfl⟩ := Prod.ext_iff.mp he
      exact h.endSession hfree hc supply
    | access handle mode =>
      simp only [ask?] at hask
      split at hask
      · next hin =>
        cases hask
        exact h.access hfree hin supply
      · cases hask
    | roster r action =>
      simp only [ask?] at hask
      split at hask
      · next hr =>
        cases action with
        | tryContains key =>
          cases hask
          exact h.tryContains hfree hr key supply
        | _ => cases hatomic
      · cases hask
    | _ => cases hatomic

end Describes

/-! ### Under a guard -/

/-- Whether a handle has been issued shows in the jobs. -/
private theorem hasIssued_congr (hj : ∀ j, s'.job? j = s.job? j) (handle : Handle) :
    s'.hasIssued handle = s.hasIssued handle := by
  have hjobs : s'.calls.map Call.job = s.calls.map Call.job :=
    Array.ext_getElem? fun j ↦ by simpa [job?] using hj j
  have hany (s : Service) : s.hasIssued handle =
      (s.calls.map Call.job).any fun job ↦ job.outcome? == some (.handle handle) := by
    rw [Array.any_map]
    rfl
  rw [hany, hany, hjobs]

namespace Describes

/-- What changes no job keeps a service described. -/
private theorem congr (h : l.Describes s) (hr : ∃ limits, Reachable limits s')
    (hj : ∀ j, s'.job? j = s.job? j) (hshows : l'.Shows s'.store)
    (hsessions : s'.store.sessions = l'.sessions) (hhandles : l'.handles = l.handles) :
    l'.Describes s' where
  reachable := hr
  idle j := by
    rintro ⟨job, hjob, hnone⟩
    exact h.idle j ⟨job, (hj j).symm.trans hjob, hnone⟩
  shows := hshows
  sessions := hsessions
  issued handle := by rw [hasIssued_congr hj, hhandles, h.issued]

/-- What a ledger does not say of a table may be changed. -/
theorem modifyTable (h : l.Describes s) (t : TableRef) {f : Table → Table}
    (hr : ∃ limits, Reachable limits { s with store := s.store.modifyTable t f })
    (hlimits : ∀ table, (f table).limits = table.limits)
    (hindex : ∀ table, (f table).index = table.index)
    (hnext : ∀ table, (f table).nextId = table.nextId) :
    l.Describes { s with store := s.store.modifyTable t f } := by
  refine h.congr hr (fun _ ↦ rfl) ?_ h.sessions rfl
  exact
    { h.shows with
      limits := (Instr.sameFrame_modifyTable t hlimits).limits.trans h.shows.limits
      nextId := (Store.nextIdOf_modifyTable_of f hnext 0).trans h.shows.nextId
      index := (Store.indexOf_modifyTable_of f hindex 0).trans h.shows.index }

/-- A guard is for a buffer in use. -/
private theorem entry_of_guard (h : l.Describes s) (hg : s.guard? i = some g) :
    ∃ e storage, l.buffers[g.handle.key]? = some e ∧ e.serial = g.handle.storage ∧
      s.store.storages[g.handle.storage]? = some storage ∧ storage.content.bytes = e.bytes := by
  obtain ⟨limits, hr⟩ := h.reachable
  have hlive := hr.sound.live_of_guard? hg
  obtain ⟨a, hkeeps⟩ := hr.sound.keeps_of_guard? hg
  obtain ⟨e, he, hserial⟩ := h.entry_of_live hkeeps hlive
  obtain ⟨storage, hstorage⟩ := Store.has_content_iff.mp (Store.has_of_unreleased hlive)
  refine ⟨e, storage, he, hserial, hstorage, ?_⟩
  rw [← h.shows.bytes _ e he, hserial, ← Store.contentOf_eq hstorage]
  rfl

/-- Dropping a guard does not show. -/
private theorem drop (h : l.Describes s) (hg : s.guard? i = some g) :
    ∃ s', s.dropGuard? i = some s' ∧ l.Describes s' ∧
      ∀ j, s'.guard? j = if j = i then none else s.guard? j := by
  obtain ⟨e, storage, -, -, hstorage, -⟩ := h.entry_of_guard hg
  have hhas : s.store.Has (.content g.handle.storage) :=
    Store.has_content_iff.mpr ⟨storage, hstorage⟩
  have hdrop : s.dropGuard? i = some ⟨s.store.setLock (.content g.handle.storage)
      ((s.store.lockOf (.content g.handle.storage)).release i),
      s.calls.modify i fun call ↦ { call with dropped := true }⟩ := by
    simp [dropGuard?, hg, Store.release?, Store.lock?_of_has hhas]
  have hact : s.act? .addressable (.dropGuard i) = some _ := hdrop
  have hrelease : (Instr.release (.content g.handle.storage) ()).run .addressable i s.store =
      some (_, _) := Instr.run_release.mpr ⟨hhas, rfl, rfl⟩
  obtain ⟨limits, hr⟩ := h.reachable
  refine ⟨_, hdrop, h.congr ⟨limits, hr.act rfl hact⟩ (fun j ↦ ?_) (h.shows.still hrelease rfl)
    ((Store.sessions_setLock ..).trans h.sessions) rfl, fun j ↦ ?_⟩
  · simp only [job?, Array.getElem?_modify]
    split
    · cases s.calls[j]? <;> rfl
    · rfl
  · simp only [Service.guard?, Array.getElem?_modify]
    by_cases hj : j = i
    · subst hj
      cases s.calls[j]? <;> simp [Call.guard?]
    · simp [hj, Ne.symm hj]

/-- An edit under a guard has the same effect on both, or cannot be made on either. -/
private theorem edit (h : l.Describes s) (hg : s.guard? i = some g) (which : Side)
    (e : Region.Edit) :
    Option.Rel (fun l' s' ↦ l'.Describes s' ∧ s'.calls = s.calls) (l.edit? g which e)
      (s.edit? i which e) := by
  obtain ⟨entry, storage, hentry, hserial, hstorage, hbytes⟩ := h.entry_of_guard hg
  have hmap := storage.content.map_edit? which e
  rw [hbytes, Content.edit?, Option.map_map] at hmap
  simp only [Ledger.edit?, Service.edit?, Service.content?, hentry, hg, hstorage, ← hmap,
    Option.bind_eq_bind, Option.bind_some, Option.pure_def]
  cases hregion : (storage.content.side which).edit? e with
  | none => exact .none
  | some region =>
    by_cases hmode : g.mode = .exclusive
    · simp only [hmode, guard_true, Option.map_some, Option.bind_some, Function.comp]
      have hact : s.act? .addressable (.edit i which e) =
          some { s with store :=
            s.store.setContent g.handle.storage (storage.content.setSide which region) } := by
        simp [act?, Service.edit?, Service.content?, hg, hstorage, hregion, hmode]
      obtain ⟨limits, hr⟩ := h.reachable
      have hdistinct (k : Key) (e : Entry) (he : l.buffers[k]? = some e)
          (hsame : e.serial = g.handle.storage) : k = g.handle.key := by
        have hindex {k : Key} {e : Entry} (he : l.buffers[k]? = some e) :
            (s.store.indexOf 0)[k]? = some e.serial :=
          (h.shows.getElem?_index k).trans (congrArg (Option.map Entry.serial) he)
        exact (hr.sound.distinct (hsame ▸ hindex he) (hserial ▸ hindex hentry)).2
      exact .some ⟨h.congr ⟨limits, hr.act rfl hact⟩ (fun _ ↦ rfl)
        (h.shows.setSide hentry hserial hstorage hdistinct which region) h.sessions rfl, rfl⟩
    · simp only [hmode, guard_false]
      exact .none

/-- Under the only guard there is the same is seen, whatever edits are made, and after it has been
dropped there is no guard. -/
private theorem use (h : l.Describes s) (hg : s.guard? i = some g)
    (hlone : ∀ j ≠ i, s.guard? j = none) (edits : List (Side × Region.Edit)) :
    Option.Rel (fun x y ↦ x.1 = y.1 ∧ x.2.Describes y.2 ∧ ∀ j, y.2.guard? j = none)
      (l.use? g edits) (s.use? i edits) := by
  induction edits generalizing l s with
  | nil =>
    obtain ⟨e, storage, he, -, hstorage, hbytes⟩ := h.entry_of_guard hg
    obtain ⟨s', hdrop, hs', hfree⟩ := h.drop hg
    simp only [Ledger.use?, bytes?, he, Service.use?, Service.content?, hg, hstorage, hdrop,
      Option.map_some, Option.bind_eq_bind, Option.bind_some, Option.pure_def]
    refine .some ⟨congrArg ([·]) hbytes.symm, hs', fun j ↦ ?_⟩
    rw [hfree]
    split
    · rfl
    · next hne => exact hlone j hne
  | cons edit edits ih =>
    obtain ⟨which, e⟩ := edit
    obtain ⟨entry, storage, hentry, -, hstorage, hbytes⟩ := h.entry_of_guard hg
    have hrel := h.edit hg which e
    simp only [Ledger.use?, bytes?, hentry, Service.use?, Service.content?, hg, hstorage,
      Option.map_some, Option.bind_eq_bind, Option.bind_some]
    cases hl : l.edit? g which e with
    | none =>
      rw [hl] at hrel
      generalize s.edit? i which e = edited at hrel ⊢
      cases hrel
      exact .none
    | some l' =>
      rw [hl] at hrel
      generalize s.edit? i which e = edited at hrel ⊢
      cases hrel with
      | @some _ s' hnext =>
        obtain ⟨hs', hcalls⟩ := hnext
        have hguard (j : CallRef) : s'.guard? j = s.guard? j := by
          rw [Service.guard?, Service.guard?, hcalls]
        have hrest := ih hs' ((hguard i).trans hg) fun j hne ↦ (hguard j).trans (hlone j hne)
        simp only [Option.bind_some]
        generalize l'.use? g edits = x at hrest ⊢
        generalize s'.use? i edits = y at hrest ⊢
        cases hrest with
        | none => exact .none
        | some hsame => exact .some ⟨congrArg₂ List.cons hbytes.symm hsame.1, hsame.2⟩

end Describes

/-! ### Errands -/

namespace Describes

/-- A call brings the outcome that the ledger says, and the ledger describes what it leaves. -/
theorem call (h : l.Describes s) (hfree : ∀ i, s.guard? i = none)
    (hask : l.ask? supply request = some (o, l')) :
    ∃ s', s.Completes supply request o s' ∧ (l'.told o).Describes s' ∧
      ∀ j, s'.guard? j = if j = s.calls.size then o.guard? else none := by
  obtain ⟨limits, hr⟩ := h.reachable
  obtain ⟨s', hc, ha⟩ := h.completes hfree hask
  obtain ⟨m, hrun, -⟩ := id hc
  exact ⟨s', hc, ha.describes h ⟨limits, hr.run hrun⟩, ha.guard? hfree⟩

/-- Of the guards there is only that of the latest call. -/
private theorem latest {n : CallRef} (hguard : ∀ j, s.guard? j = if j = n then some g else none) :
    s.guard? n = some g ∧ ∀ j ≠ n, s.guard? j = none :=
  ⟨(hguard n).trans (if_pos rfl), fun j hj ↦ (hguard j).trans (if_neg hj)⟩

/-- An errand brings the receipt that the ledger says. -/
theorem runs (h : l.Describes s) (hfree : ∀ i, s.guard? i = none) {e : Errand} {receipt : Receipt}
    (hrun : l.run? supply e = some (receipt, l')) :
    ∃ s', s.Runs supply e receipt s' ∧ l'.Describes s' ∧ ∀ i, s'.guard? i = none := by
  obtain ⟨⟨o, l₁⟩, hask, hrun⟩ := Option.bind_eq_some_iff.mp hrun
  obtain ⟨u, hc, hu, hguard⟩ := h.call hfree hask
  cases ho : o.guard? with
  | none =>
    simp only [ho] at hrun hguard
    cases hrun
    exact ⟨u, .plain hc ho, hu, fun j ↦ (hguard j).trans (ite_self _)⟩
  | some g =>
    simp only [ho] at hrun hguard
    obtain ⟨⟨seen, l₂⟩, huse, hrun⟩ := Option.bind_eq_some_iff.mp hrun
    cases hrun
    obtain ⟨hg, hlone⟩ := latest hguard
    have hrel := hu.use hg hlone e.edits
    rw [huse] at hrel
    generalize hused : u.use? s.calls.size e.edits = used at hrel
    cases hrel with
    | @some _ y hsame =>
      obtain ⟨rfl, hs', hfree'⟩ := hsame
      exact ⟨y.2, .guarded hc ho hused, hs', hfree'⟩

/-- What an errand brings, the ledger says. -/
theorem run?_of_runs (h : l.Describes s) (hfree : ∀ i, s.guard? i = none) {e : Errand}
    {receipt : Receipt} (hkeeps : e.request.keepsRosters = true)
    (hruns : s.Runs supply e receipt s') : ∃ l', l.run? supply e = some (receipt, l') := by
  have hanswer {o : Outcome} {u : Service} (hc : s.Completes supply e.request o u) :
      ∃ l₁, l.ask? supply e.request = some (o, l₁) ∧ (l₁.told o).Describes u ∧
        ∀ j, u.guard? j = if j = s.calls.size then o.guard? else none := by
    obtain ⟨m, hrun, -⟩ := id hc
    obtain ⟨ha, v, hact, -⟩ := run?_cons_eq_some.mp hrun
    obtain ⟨job, hj, -⟩ := Option.bind_eq_some_iff.mp hact
    obtain ⟨q, l₁, hask⟩ := h.exists_answer hkeeps ha hj supply
    obtain ⟨w, hc', hw, hguard⟩ := h.call hfree hask
    obtain ⟨rfl, rfl⟩ := hc.unique hc'
    exact ⟨l₁, hask, hw, hguard⟩
  cases hruns with
  | @plain o _ hc ho =>
    obtain ⟨l₁, hask, -, -⟩ := hanswer hc
    exact ⟨l₁.told o, by simp [Ledger.run?, hask, ho]⟩
  | @guarded o g seen u _ hc ho huse =>
    obtain ⟨l₁, hask, hu, hguard⟩ := hanswer hc
    obtain ⟨hg, hlone⟩ := latest (ho ▸ hguard)
    have hrel := hu.use hg hlone e.edits
    rw [huse] at hrel
    generalize hused : (l₁.told o).use? g e.edits = used at hrel
    cases hrel with
    | @some x _ hsame =>
      obtain ⟨rfl, -, -⟩ := hsame
      exact ⟨x.2, by simp [Ledger.run?, hask, ho, hused]⟩

/-- One errand after the other brings what the ledger says. -/
theorem runsAll_iff (h : l.Describes s) (hfree : ∀ i, s.guard? i = none) {errands : List Errand}
    (hkeeps : ∀ e ∈ errands, e.request.keepsRosters = true) (receipts : List Receipt) :
    RunsAll supply s errands receipts ↔ l.runAll? supply errands = some receipts := by
  induction errands generalizing l s receipts with
  | nil =>
    constructor
    · rintro ⟨⟩
      rfl
    · rintro ⟨⟩
      exact .nil
  | cons e es ih =>
    have hkeep := hkeeps e List.mem_cons_self
    have hrest := fun e he ↦ hkeeps e (List.mem_cons_of_mem _ he)
    constructor
    · intro hall
      cases hall with
      | @cons _ s' _ _ receipt receipts hruns hall =>
        obtain ⟨l', hrun⟩ := h.run?_of_runs hfree hkeep hruns
        obtain ⟨u, hruns', hu, hfree'⟩ := h.runs hfree hrun
        obtain ⟨-, rfl⟩ := hruns.unique hruns'
        simp [Ledger.runAll?, hrun, (ih hu hfree' hrest receipts).mp hall]
    · intro hall
      obtain ⟨⟨receipt, l'⟩, hrun, hall⟩ := Option.bind_eq_some_iff.mp hall
      obtain ⟨receipts, hothers, hcons⟩ := Option.bind_eq_some_iff.mp hall
      cases hcons
      obtain ⟨s', hruns, hs', hfree'⟩ := h.runs hfree hrun
      exact .cons hruns ((ih hs' hfree' hrest receipts).mpr hothers)

end Describes

end Ledger

/-! ### The whole of it -/

namespace Service

/-- The service before any call, with one table and the number it hands out next. -/
def startingAt (limits : Limits) (id : BufferId) : Service :=
  { store := (Store.withTables [limits]).setNextId 0 id }

/-- The ledger before any call describes the service before any call. -/
theorem describes_startingAt (limits : Limits) (id : BufferId) :
    (Ledger.initial limits id).Describes (startingAt limits id) where
  reachable := by
    have hact : (withTables [limits]).act? .addressable (.setNextId 0 id) =
        some (startingAt limits id) := rfl
    exact ⟨[limits], Reachable.act ⟨[], rfl⟩ rfl hact⟩
  idle j := by
    rintro ⟨job, hj, -⟩
    cases hj
  shows := by
    have hindex : (startingAt limits id).store.indexOf 0 = ∅ :=
      (Store.indexOf_modifyTable_of (fun table ↦ { table with nextId := id }) (fun _ ↦ rfl) 0).trans
        (indexOf_withTables [limits] 0)
    have hempty (key : Key) : Roster.contains {} key = false := by simp [Roster.contains]
    constructor
    case index => exact hindex.trans (by simp [Ledger.initial])
    all_goals
      simp [Service.ideal, startingAt, Store.setNextId, Store.withTables, Store.modifyTable,
        Store.nextIdOf, Store.rosterOf, Ledger.owner?, Ledger.initial, hempty]
  sessions := rfl
  issued handle := by simp [hasIssued, startingAt, Ledger.initial]

/-- A client that makes one call after the other, and drops the guard it may have got before the
next, cannot tell a table from a plain map of buffers. Whatever it is that the client asks for, as
long as it leaves the rosters to the table, and whatever it writes under its guards, it gets the
answers and sees the bytes that the ledger says. -/
theorem refines_ledger (supply : Supply) (limits : Limits) (id : BufferId) {errands : List Errand}
    (hkeeps : ∀ e ∈ errands, e.request.keepsRosters = true) (receipts : List Receipt) :
    RunsAll supply (startingAt limits id) errands receipts ↔
      (Ledger.initial limits id).runAll? supply errands = some receipts :=
  (describes_startingAt limits id).runsAll_iff (fun _ ↦ rfl) hkeeps receipts

/-- Two registries of one session, with the numbers starting over between their buffers. -/
theorem two_owners_of_one_session :
    RunsAll .addressable (startingAt {} (Key.last ⟨7⟩).buffer)
      [⟨.attach ⟨⟨7⟩, .table 0⟩, []⟩, ⟨.attach ⟨⟨7⟩, .session 0⟩, []⟩, ⟨.allocate 0 0 2 1, []⟩,
        ⟨.allocate 0 1 1 0, []⟩,
        ⟨.lookup 0 (.last ⟨7⟩) .exclusive, [(.user, .write 1 ⟨#[5]⟩)]⟩,
        ⟨.access ⟨.last ⟨7⟩, 0⟩ .shared, []⟩, ⟨.free 0 1 (Key.last ⟨7⟩).buffer, []⟩,
        ⟨.endSession 0, []⟩, ⟨.access ⟨.first ⟨7⟩, 1⟩ .shared, []⟩,
        ⟨.inspect 0 (.keysOf ⟨7⟩), []⟩]
      [⟨.registry 0, []⟩, ⟨.session 0, []⟩, ⟨.handle ⟨.last ⟨7⟩, 0⟩, []⟩,
        ⟨.handle ⟨.first ⟨7⟩, 1⟩, []⟩,
        ⟨.guard ⟨⟨.last ⟨7⟩, 0⟩, .exclusive⟩, [⟨[0, 0], [0]⟩, ⟨[0, 5], [0]⟩]⟩,
        ⟨.guard ⟨⟨.last ⟨7⟩, 0⟩, .shared⟩, [⟨[0, 5], [0]⟩]⟩,
        ⟨.refused (.notFound (.last ⟨7⟩)), []⟩, ⟨.number 1, []⟩,
        ⟨.refused (.notFound (.first ⟨7⟩)), []⟩, ⟨.keys [.last ⟨7⟩], []⟩] :=
  (refines_ledger .addressable {} (Key.last ⟨7⟩).buffer (by decide) _).mpr (by decide +kernel)

end Service

end SessionBuffers
