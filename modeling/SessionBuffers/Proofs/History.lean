import Mathlib.Algebra.Order.Ring.Int
import Mathlib.Data.List.Induction
import Mathlib.Data.Option.Basic
import SessionBuffers.Service
import SessionBuffers.Proofs.Effect

/-!
# Histories of a service

A history lists what happens to a service in order: any call may step at any time, so the
histories are all the ways in which calls can interleave. The one thing asked of clients is that
they use handles that an allocation has returned. `Reachable` services are those some history leads
to, and `Reachable.induct` is the rule by which an invariant is shown of them. What one action does
is taken apart once, in `does_of_act?`.
-/

namespace SessionBuffers

/-- What happens to a service in order, each action with the storage that can be had for it. -/
abbrev History := List (Supply × Action)

namespace History

/-- A request is made, and its call makes so many steps; everything addressable can be had. -/
def call (request : Request) (i : CallRef) (steps : Nat) : History :=
  (.addressable, .invoke request) :: List.replicate steps (.addressable, .step i)

/-- A registry is attached for a session, and a buffer of two regions is allocated with it. -/
def allocated (session : SessionId) (user kernel : UInt64) : History :=
  call (.attach ⟨session, .alone 1⟩) 0 1 ++ call (.allocate 0 0 user kernel) 1 14

end History

/-- Whether an action only shows in the counters or the next number of a table. -/
def Action.isTending : Action → Bool
  | .setNextId _ _ | .resetCounters _ | .count _ _ _ => true
  | _ => false

/-- The calls under whose guards an action writes. -/
@[simp] def Action.writers : Action → List CallRef
  | .edit i _ _ => [i]
  | .swap i j => [i, j]
  | _ => []

/-- What two stores have in common when only counters and next numbers may differ. -/
structure Store.Agrees (s s' : Store) : Prop where
  limits : ∀ t, s'.limitsOf t = s.limitsOf t
  session : ∀ r, s'.sessionOf r = s.sessionOf r
  sessions : s'.sessions = s.sessions
  has : ∀ name, s'.Has name ↔ s.Has name
  index : ∀ t, s'.indexOf t = s.indexOf t
  roster : ∀ r, s'.rosterOf r = s.rosterOf r
  content : ∀ b, s'.contentOf b = s.contentOf b
  lock : ∀ name, s'.lockOf name = s.lockOf name

theorem Store.agrees_modifyTable {s : Store} {t : TableRef} (f : Table → Table)
    (hm : ∀ table, (f table).limits = table.limits) (hi : ∀ table, (f table).index = table.index)
    (hl : ∀ table, (f table).lock = table.lock) : s.Agrees (s.modifyTable t f) where
  limits := limitsOf_modifyTable f hm
  session _ := rfl
  sessions := rfl
  has := has_modifyTable f hl
  index := indexOf_modifyTable_of f hi
  roster _ := rfl
  content _ := rfl
  lock := lockOf_modifyTable f hl

/-! ### Where calls begin -/

namespace Job

/-- The jobs that requests begin as. -/
inductive Fresh (s : Store) : Request → Job → Prop
  | attach {a : Attachment}
    (h : ∀ t, a.purpose = .table t ∨ a.purpose = .session t → s.Has (.table t)) :
    Fresh s (.attach a) (.attaching a .start)
  | allocate {t : TableRef} {r : RegistryRef} {user kernel : UInt64} (ht : s.Has (.table t))
    (hr : s.Has (.registry r)) : Fresh s (.allocate t r user kernel)
      (.allocating ⟨t, r, s.sessionOf r, user, kernel⟩ .checkLimits)
  | free {t : TableRef} {r : RegistryRef} {id : BufferId} (ht : s.Has (.table t))
    (hr : s.Has (.registry r)) :
    Fresh s (.free t r id) (.freeing ⟨t, r, ⟨s.sessionOf r, id⟩⟩ .lockRegistry)
  | teardown {t : TableRef} {r : RegistryRef} (ht : s.Has (.table t)) (hr : s.Has (.registry r)) :
    Fresh s (.teardown t r) (.tearingDown ⟨t, r, s.sessionOf r⟩ .lockRegistry)
  | endSession {c : SessionRef} {session : Session} (hc : s.sessions[c]? = some session)
    (hr : s.Has (.registry session.registry)) : Fresh s (.endSession c)
      (.tearingDown ⟨session.table, session.registry, s.sessionOf session.registry⟩ (.finish c))
  | lookup {t : TableRef} {key : Key} {mode : Mode} (ht : s.Has (.table t)) :
    Fresh s (.lookup t key mode) (.lookingUp ⟨t, key, mode⟩ .lockTable)
  | access {h : Handle} {mode : Mode} (hb : s.Has (.content h.storage)) :
    Fresh s (.access h mode) (.accessing ⟨h, mode⟩ .lockContent)
  | inspect {t : TableRef} {question : Question} (ht : s.Has (.table t)) :
    Fresh s (.inspect t question) (.inspecting ⟨t, question⟩ .lockTable)
  | roster {r : RegistryRef} {action : RosterAction} (hr : s.Has (.registry r)) :
    Fresh s (.roster r action)
      (.editing ⟨r, s.sessionOf r, action⟩ (RosterCall.start ⟨r, s.sessionOf r, action⟩))
  | draw {t : TableRef} (ht : s.Has (.table t)) : Fresh s (.draw t) (.drawing ⟨t⟩ .draw)

/-- A request begins as its job when what it names exists. -/
theorem ofRequest?_eq_some {s : Store} {request : Request} {job : Job} :
    ofRequest? s request = some job ↔ Fresh s request job := by
  have hsession {r : RegistryRef} {registry : Registry} (hr : s.registries[r]? = some registry) :
      registry.session = s.sessionOf r := by
    simp [Store.sessionOf, hr]
  constructor
  · intro h
    cases request <;> simp only [ofRequest?, Option.bind_eq_bind, Option.bind_eq_some_iff,
      Option.map_eq_some_iff, Option.pure_def, Option.some.injEq] at h
    case attach a =>
      split at h
      · next hp =>
        cases h
        exact .attach fun t ht ↦ by simp [hp] at ht
      all_goals
        next hp =>
        obtain ⟨table, ht, rfl⟩ := Option.map_eq_some_iff.mp h
        refine .attach fun u hu ↦ ?_
        obtain rfl : _ = u := by simpa [hp] using hu
        exact Store.has_table_iff.mpr ⟨table, ht⟩
    case allocate t r user kernel =>
      obtain ⟨table, ht, registry, hr, rfl⟩ := h
      rw [hsession hr]
      exact .allocate (Store.has_table_iff.mpr ⟨table, ht⟩)
        (Store.has_registry_iff.mpr ⟨registry, hr⟩)
    case free t r id =>
      obtain ⟨table, ht, registry, hr, rfl⟩ := h
      rw [hsession hr]
      exact .free (Store.has_table_iff.mpr ⟨table, ht⟩) (Store.has_registry_iff.mpr ⟨registry, hr⟩)
    case teardown t r =>
      obtain ⟨table, ht, registry, hr, rfl⟩ := h
      rw [hsession hr]
      exact .teardown (Store.has_table_iff.mpr ⟨table, ht⟩)
        (Store.has_registry_iff.mpr ⟨registry, hr⟩)
    case endSession c =>
      obtain ⟨session, hc, registry, hr, rfl⟩ := h
      rw [hsession hr]
      exact .endSession hc (Store.has_registry_iff.mpr ⟨registry, hr⟩)
    case lookup t key mode =>
      obtain ⟨table, ht, rfl⟩ := h
      exact .lookup (Store.has_table_iff.mpr ⟨table, ht⟩)
    case access handle mode =>
      obtain ⟨storage, hb, rfl⟩ := h
      exact .access (Store.has_content_iff.mpr ⟨storage, hb⟩)
    case inspect t question =>
      obtain ⟨table, ht, rfl⟩ := h
      exact .inspect (Store.has_table_iff.mpr ⟨table, ht⟩)
    case roster r action =>
      obtain ⟨registry, hr, rfl⟩ := h
      rw [hsession hr]
      exact .roster (Store.has_registry_iff.mpr ⟨registry, hr⟩)
    case draw t =>
      obtain ⟨table, ht, rfl⟩ := h
      exact .draw (Store.has_table_iff.mpr ⟨table, ht⟩)
  · have htable {t : TableRef} (ht : s.Has (.table t)) : ∃ table, s.tables[t]? = some table :=
      Store.has_table_iff.mp ht
    have hregistry {r : RegistryRef} (hr : s.Has (.registry r)) :
        ∃ registry, s.registries[r]? = some registry := Store.has_registry_iff.mp hr
    intro h
    cases h with
    | @attach a ha =>
      simp only [ofRequest?]
      split
      · rfl
      · next t hp =>
        obtain ⟨_, ht⟩ := htable (ha t (.inl hp))
        simp [ht]
      · next t hp =>
        obtain ⟨_, ht⟩ := htable (ha t (.inr hp))
        simp [ht]
    | allocate ht hr | free ht hr | teardown ht hr =>
      obtain ⟨_, ht⟩ := htable ht
      obtain ⟨_, hr⟩ := hregistry hr
      simp [ofRequest?, ht, hr, hsession hr]
    | endSession hc hr =>
      obtain ⟨_, hr⟩ := hregistry hr
      simp [ofRequest?, hc, hr, hsession hr]
    | lookup ht | inspect ht | draw ht =>
      obtain ⟨_, ht⟩ := htable ht
      simp [ofRequest?, ht]
    | access hb =>
      obtain ⟨_, hb⟩ := Store.has_content_iff.mp hb
      simp [ofRequest?, hb]
    | roster hr =>
      obtain ⟨_, hr⟩ := hregistry hr
      simp [ofRequest?, hr, hsession hr]

end Job

/-- A client holds the guard a call ended with until it drops it. -/
theorem Call.guard?_eq_some {call : Call} {g : Guard} :
    call.guard? = some g ↔ call.dropped = false ∧ call.job.outcome? = some (.guard g) := by
  unfold guard?
  split
  · next hd ho => simp [hd, ho]
  · next hn =>
    simp only [reduceCtorEq, false_iff]
    rintro ⟨hd, ho⟩
    exact hn g hd ho

namespace Service

/-- Whether some call has ended with a handle. -/
def hasIssued (s : Service) (h : Handle) : Bool :=
  s.calls.any fun call ↦ call.job.outcome? == some (.handle h)

/-- Whether clients can take an action: a handle is only had from the call that returned it. -/
def allows (s : Service) : Action → Bool
  | .invoke (.access h _) => s.hasIssued h
  | _ => true

/-- The service after a history; none when some action of it cannot be taken. -/
def run? (s : Service) : History → Option Service
  | [] => some s
  | (supply, action) :: h =>
    if s.allows action then (s.act? supply action).bind fun s ↦ s.run? h else none

/-- Whether some history leads to a service, from tables with these limits. -/
def Reachable (limits : List Limits) (s : Service) : Prop :=
  ∃ h, (withTables limits).run? h = some s

/-- The job of a call. -/
def job? (s : Service) (i : CallRef) : Option Job := s.calls[i]?.map Call.job

/-- Whether a call is under way. -/
def InFlight (s : Service) (i : CallRef) : Prop := ∃ job, s.job? i = some job ∧ job.outcome? = none

/-- Whether no call is under way. -/
def Idle (s : Service) : Prop := ∀ i, ¬ s.InFlight i

/-! ### Histories one after the other -/

theorem run?_append (s : Service) (h k : History) :
    s.run? (h ++ k) = (s.run? h).bind fun s ↦ s.run? k := by
  induction h generalizing s with
  | nil => rfl
  | cons e h ih =>
    simp only [List.cons_append, run?]
    split
    · cases s.act? e.1 e.2 with
      | none => rfl
      | some s => exact ih s
    · rfl

theorem run?_append_eq_some {s s' : Service} {h k : History} :
    s.run? (h ++ k) = some s' ↔ ∃ u, s.run? h = some u ∧ u.run? k = some s' := by
  rw [run?_append, Option.bind_eq_some_iff]

theorem run?_cons_eq_some {s s' : Service} {supply : Supply} {action : Action} {h : History} :
    s.run? ((supply, action) :: h) = some s' ↔
      s.allows action = true ∧ ∃ u, s.act? supply action = some u ∧ u.run? h = some s' := by
  cases ha : s.allows action <;> simp [run?, ha, Option.bind_eq_some_iff]

/-- What holds at first and is kept by every action holds after every history. -/
theorem run_induct {P : Service → Prop}
    (hs : ∀ s supply action s',
      P s → s.allows action = true → s.act? supply action = some s' → P s')
    {s s' : Service} {h : History} (h0 : P s) (hr : s.run? h = some s') : P s' := by
  induction h generalizing s with
  | nil => exact Option.some.inj hr ▸ h0
  | cons e h ih =>
    obtain ⟨ha, u, hu, hr⟩ := run?_cons_eq_some.mp hr
    exact ih (hs s e.1 e.2 u h0 ha hu) hr

/-- What holds of fresh tables and is kept by every action holds of every reachable service. -/
theorem Reachable.induct {P : Service → Prop} {limits : List Limits}
    (h0 : P (withTables limits))
    (hs : ∀ s supply action s',
      P s → s.allows action = true → s.act? supply action = some s' → P s')
    {s : Service} (hr : Reachable limits s) : P s := by
  obtain ⟨h, hr⟩ := hr
  exact run_induct hs h0 hr

theorem Reachable.run {limits : List Limits} {s s' : Service} {h : History}
    (hs : Reachable limits s) (hr : s.run? h = some s') : Reachable limits s' := by
  obtain ⟨k, hk⟩ := hs
  exact ⟨k ++ h, run?_append_eq_some.mpr ⟨s, hk, hr⟩⟩

theorem Reachable.act {limits : List Limits} {s s' : Service} {supply : Supply} {action : Action}
    (hs : Reachable limits s) (ha : s.allows action = true) (h : s.act? supply action = some s') :
    Reachable limits s' :=
  hs.run (h := [(supply, action)]) (run?_cons_eq_some.mpr ⟨ha, s', h, rfl⟩)

/-! ### What is seen in a history -/

/-- What is seen of the actions of a history, in order. -/
def collected {α : Type} (see : Service → Action → Option α) : Service → History → List α
  | _, [] => []
  | s, (supply, action) :: h =>
    (see s action).toList ++
      match s.act? supply action with
      | some s => s.collected see h
      | none => []

section Collected

variable {α : Type} {see : Service → Action → Option α} {s u : Service} {supply : Supply}
  {action : Action} {h k : History}

@[simp] theorem collected_nil : s.collected see [] = [] := rfl

theorem collected_cons (hact : s.act? supply action = some u) :
    s.collected see ((supply, action) :: h) = (see s action).toList ++ u.collected see h := by
  rw [collected, hact]

theorem collected_append (hr : s.run? h = some u) :
    s.collected see (h ++ k) = s.collected see h ++ u.collected see k := by
  induction h generalizing s with
  | nil =>
    cases hr
    rfl
  | cons e h ih =>
    obtain ⟨-, v, hv, hr⟩ := run?_cons_eq_some.mp hr
    rw [List.cons_append, collected_cons hv, collected_cons hv, ih hr, List.append_assoc]

end Collected

/-! ### What an action does -/

/-- What a client makes of storages under guards for writing that it holds: no lock is touched, and
content has one region edited, or is swapped with the content under another guard. -/
inductive Writes (s : Service) : Action → Array Storage → Prop
  | edit {i : CallRef} {which : Side} {e : Region.Edit} {storages : Array Storage} {g : Guard}
    {region : Region} (hg : s.guard? i = some g) (hb : s.store.Has (.content g.handle.storage))
    (hm : g.mode = .exclusive)
    (he : ((s.store.contentOf g.handle.storage).side which).edit? e = some region)
    (hl : ∀ name, ({ s.store with storages } : Store).lock? name = s.store.lock? name)
    (hc : ∀ b, ({ s.store with storages } : Store).contentOf b = if g.handle.storage = b then
      (s.store.contentOf g.handle.storage).setSide which region else s.store.contentOf b) :
    Writes s (.edit i which e) storages
  | swap {i j : CallRef} {storages : Array Storage} {g f : Guard} (hne : i ≠ j)
    (hg : s.guard? i = some g) (hf : s.guard? j = some f)
    (hb : s.store.Has (.content g.handle.storage)) (hd : s.store.Has (.content f.handle.storage))
    (hm : g.mode = .exclusive) (hn : f.mode = .exclusive)
    (hl : ∀ name, ({ s.store with storages } : Store).lock? name = s.store.lock? name)
    (hc : ∀ b, ({ s.store with storages } : Store).contentOf b =
      s.store.contentOf (Equiv.swap g.handle.storage f.handle.storage b)) :
    Writes s (.swap i j) storages

/-- What happens to a service in one action: a call is made, makes a step, or has its guard used or
dropped; or something is done to a table that only its counters and its next number show. -/
inductive Does (supply : Supply) (s : Service) : Action → Service → Prop
  | invoke {request : Request} {job : Job} (hj : Job.ofRequest? s.store request = some job) :
    Does supply s (.invoke request) { s with calls := s.calls.push { job } }
  | step {i : CallRef} {call : Call} {instr : Instr Job} {job : Job} {store : Store}
    (hc : s.calls[i]? = some call) (hp : call.job.progress = .next instr)
    (hr : instr.run supply i s.store = some (job, store)) :
    Does supply s (.step i) ⟨store, s.calls.modify i fun call ↦ { call with job }⟩
  | drop {i : CallRef} {call : Call} {g : Guard} (hc : s.calls[i]? = some call)
    (hg : call.guard? = some g) (hb : s.store.Has (.content g.handle.storage)) :
    Does supply s (.dropGuard i)
      ⟨s.store.setLock (.content g.handle.storage)
          ((s.store.lockOf (.content g.handle.storage)).release i),
        s.calls.modify i fun call ↦ { call with dropped := true }⟩
  | edit {i : CallRef} {which : Side} {e : Region.Edit} {storages : Array Storage}
    (hw : s.Writes (.edit i which e) storages) :
    Does supply s (.edit i which e) { s with store := { s.store with storages } }
  | swap {i j : CallRef} {storages : Array Storage} (hw : s.Writes (.swap i j) storages) :
    Does supply s (.swap i j) { s with store := { s.store with storages } }
  | tend {action : Action} {store : Store} (hk : action.isTending = true)
    (ha : s.store.Agrees store) : Does supply s action { s with store }

theorem guard?_eq_some {s : Service} {i : CallRef} {g : Guard} :
    s.guard? i = some g ↔ ∃ call, s.calls[i]? = some call ∧ call.guard? = some g := by
  simp [guard?, Option.bind_eq_some_iff]

/-- The content under a guard is that of its storage. -/
theorem content?_eq_some {s : Service} {i : CallRef} {g : Guard} (hg : s.guard? i = some g)
    {content : Content} : s.content? i = some content ↔
      s.store.Has (.content g.handle.storage) ∧
        content = s.store.contentOf g.handle.storage := by
  simp only [content?, hg, Option.bind_eq_bind, Option.bind_some, Option.bind_eq_some_iff,
    Option.pure_def, Option.some.injEq, Store.has_content_iff]
  constructor
  · rintro ⟨storage, hb, rfl⟩
    exact ⟨⟨storage, hb⟩, (Store.contentOf_eq hb).symm⟩
  · rintro ⟨⟨storage, hb⟩, rfl⟩
    exact ⟨storage, hb, (Store.contentOf_eq hb).symm⟩

theorem step?_eq_some {supply : Supply} {s s' : Service} {i : CallRef} :
    s.step? supply i = some s' ↔ ∃ call instr job store, s.calls[i]? = some call ∧
      call.job.progress = .next instr ∧ instr.run supply i s.store = some (job, store) ∧
      s' = ⟨store, s.calls.modify i fun call ↦ { call with job }⟩ := by
  simp only [step?, Option.bind_eq_bind, Option.bind_eq_some_iff]
  constructor
  · rintro ⟨call, hc, h⟩
    split at h
    · cases h
    · next instr hp =>
      obtain ⟨⟨job, store⟩, hr, h⟩ := Option.bind_eq_some_iff.mp h
      exact ⟨call, instr, job, store, hc, hp, hr, (Option.some.inj h).symm⟩
  · rintro ⟨call, instr, job, store, hc, hp, hr, rfl⟩
    refine ⟨call, hc, ?_⟩
    simp [hp, hr]

/-- Every action that is taken does one of these things. -/
theorem does_of_act? {supply : Supply} {s s' : Service} {action : Action}
    (h : s.act? supply action = some s') : s.Does supply action s' := by
  cases action with
  | invoke request =>
    simp only [act?, invoke?, Option.bind_eq_bind, Option.bind_eq_some_iff, Option.pure_def,
      Option.some.injEq] at h
    obtain ⟨job, hj, rfl⟩ := h
    exact .invoke hj
  | step i =>
    obtain ⟨call, instr, job, store, hc, hp, hr, rfl⟩ := step?_eq_some.mp h
    exact .step hc hp hr
  | dropGuard i =>
    simp only [act?, dropGuard?, Store.release?, Option.bind_eq_bind, Option.bind_eq_some_iff,
      Option.pure_def, Option.some.injEq] at h
    obtain ⟨g, hg, _, ⟨l, hl, rfl⟩, rfl⟩ := h
    obtain ⟨call, hc, hg⟩ := guard?_eq_some.mp hg
    rw [← Store.lock?_eq_some hl]
    exact .drop hc hg (by simp [Store.Has, hl])
  | edit i which e =>
    simp only [act?, edit?, Option.bind_eq_bind, Option.bind_eq_some_iff, Option.pure_def,
      Option.some.injEq] at h
    obtain ⟨g, hg, content, hcontent, region, he, _, hm, rfl⟩ := h
    obtain ⟨hb, rfl⟩ := (content?_eq_some hg).mp hcontent
    exact .edit (.edit hg hb (by simpa [guard] using hm) he (Store.lock?_setContent _)
      (Store.contentOf_setContent hb _))
  | swap i j =>
    simp only [act?, swap?, Option.bind_eq_bind, Option.bind_eq_some_iff, Option.pure_def,
      Option.some.injEq] at h
    obtain ⟨g, hg, f, hf, content, hcontent, other, hother, _, hm, rfl⟩ := h
    obtain ⟨hb, rfl⟩ := (content?_eq_some hg).mp hcontent
    obtain ⟨hd, rfl⟩ := (content?_eq_some hf).mp hother
    obtain ⟨hne, hm, hn⟩ : i ≠ j ∧ g.mode = .exclusive ∧ f.mode = .exclusive := by
      simpa [guard] using hm
    exact .swap (.swap hne hg hf hb hd hm hn (Store.lock?_swapped _ _)
      (Store.contentOf_swapped hb hd))
  | setNextId t id =>
    simp only [act?, Option.bind_eq_bind, Option.bind_eq_some_iff, Option.pure_def,
      Option.some.injEq] at h
    obtain ⟨_, -, rfl⟩ := h
    exact .tend rfl (Store.agrees_modifyTable _ (by intro _; rfl) (by intro _; rfl)
      (by intro _; rfl))
  | resetCounters t =>
    simp only [act?, Option.bind_eq_bind, Option.bind_eq_some_iff, Option.pure_def,
      Option.some.injEq] at h
    obtain ⟨_, -, rfl⟩ := h
    exact .tend rfl (Store.agrees_modifyTable _ (by intro _; rfl) (by intro _; rfl)
      (by intro _; rfl))
  | count t which amount =>
    simp only [act?, Option.bind_eq_bind, Option.bind_eq_some_iff, Option.pure_def,
      Option.some.injEq] at h
    obtain ⟨_, -, rfl⟩ := h
    exact .tend rfl (Store.agrees_modifyTable _ (by intro _; rfl) (by intro _; rfl)
      (by intro _; rfl))

/-! ### Writing under guards -/

section Writes

variable {s : Service} {action : Action} {storages : Array Storage}

/-- Writing leaves every lock as it is. -/
theorem Writes.lock? (hw : s.Writes action storages) (name : LockName) :
    ({ s.store with storages } : Store).lock? name = s.store.lock? name := by
  cases hw with
  | edit _ _ _ _ hl _ | swap _ _ _ _ _ _ _ hl _ => exact hl name

theorem Writes.lockOf (hw : s.Writes action storages) (name : LockName) :
    ({ s.store with storages } : Store).lockOf name = s.store.lockOf name :=
  congrArg (·.getD .free) (hw.lock? name)

theorem Writes.has (hw : s.Writes action storages) (name : LockName) :
    ({ s.store with storages } : Store).Has name ↔ s.store.Has name := by
  rw [Store.Has, Store.Has, hw.lock?]

/-- Whoever is written under has a guard for writing. -/
theorem Writes.guard? (hw : s.Writes action storages) {i : CallRef} (hi : i ∈ action.writers) :
    ∃ g, s.guard? i = some g ∧ g.mode = .exclusive := by
  cases hw with
  | edit hg _ hm _ _ _ =>
    rw [List.mem_singleton.mp hi]
    exact ⟨_, hg, hm⟩
  | swap _ hg hf _ _ hm hn _ _ =>
    simp only [Action.writers, List.mem_cons, List.not_mem_nil, or_false] at hi
    rcases hi with rfl | rfl
    · exact ⟨_, hg, hm⟩
    · exact ⟨_, hf, hn⟩

/-- Content stays as it is, or it is under a guard for writing that is written under. -/
theorem Writes.content_or (hw : s.Writes action storages) (b : StorageRef) :
    ({ s.store with storages } : Store).contentOf b = s.store.contentOf b ∨
      ∃ i ∈ action.writers, ∃ g, s.guard? i = some g ∧ g.mode = .exclusive ∧
        g.handle.storage = b := by
  cases hw with
  | @edit i _ _ _ g _ hg hb hm he hl hc =>
    by_cases hgb : g.handle.storage = b
    · exact .inr ⟨i, List.mem_singleton_self i, g, hg, hm, hgb⟩
    · exact .inl ((hc b).trans (if_neg hgb))
  | @swap i j _ g f hne hg hf hb hd hm hn hl hc =>
    by_cases hgb : g.handle.storage = b
    · exact .inr ⟨i, List.mem_cons_self, g, hg, hm, hgb⟩
    by_cases hfb : f.handle.storage = b
    · exact .inr ⟨j, List.mem_cons_of_mem i (List.mem_singleton_self j), f, hf, hn, hfb⟩
    · left
      rw [hc, Equiv.swap_apply_of_ne_of_ne (Ne.symm hgb) (Ne.symm hfb)]

end Writes

/-- Only steps change indexes and rosters. -/
theorem Does.views_kept {supply : Supply} {s s' : Service} {action : Action}
    (hd : s.Does supply action s') (hne : ∀ i, action ≠ .step i) :
    (∀ t, s'.store.indexOf t = s.store.indexOf t) ∧
      ∀ r, s'.store.rosterOf r = s.store.rosterOf r := by
  cases hd with
  | invoke hj => exact ⟨fun _ ↦ rfl, fun _ ↦ rfl⟩
  | @step i _ _ _ _ _ _ _ => exact absurd rfl (hne i)
  | drop hc hg hb => exact ⟨fun _ ↦ Store.indexOf_setLock .., fun _ ↦ Store.rosterOf_setLock ..⟩
  | edit hw | swap hw => exact ⟨fun _ ↦ rfl, fun _ ↦ rfl⟩
  | tend hk ha => exact ⟨ha.index, ha.roster⟩

/-! ### Counters and numbers -/

section Tended

variable {supply : Supply} {s s' : Service} {action : Action} {t : TableRef}

/-- Without a step, a reset or an edit by hand counters stay. -/
theorem counters_kept (hact : s.act? supply action = some s')
    (hstep : ∀ i, action ≠ .step i) (hreset : action ≠ .resetCounters t)
    (hcount : ∀ which amount, action ≠ .count t which amount) :
    s'.store.countersOf t = s.store.countersOf t := by
  cases action with
  | step i => exact absurd rfl (hstep i)
  | invoke request =>
    cases does_of_act? hact with
    | invoke hj => rfl
    | tend hk _ => cases hk
  | dropGuard i =>
    cases does_of_act? hact with
    | drop hc hg hb => exact Store.countersOf_setLock ..
    | tend hk _ => cases hk
  | edit i which e =>
    cases does_of_act? hact with
    | edit hw => rfl
    | tend hk _ => cases hk
  | swap i j =>
    cases does_of_act? hact with
    | swap hw => rfl
    | tend hk _ => cases hk
  | setNextId u id =>
    simp only [act?, Option.bind_eq_bind, Option.bind_eq_some_iff, Option.pure_def,
      Option.some.injEq] at hact
    obtain ⟨_, -, rfl⟩ := hact
    exact Store.countersOf_modifyTable_of _ (by intro _; rfl) t
  | resetCounters u =>
    simp only [act?, Option.bind_eq_bind, Option.bind_eq_some_iff, Option.pure_def,
      Option.some.injEq] at hact
    obtain ⟨table, hu, rfl⟩ := hact
    rw [Store.resetCounters, Store.countersOf_modifyTable hu, if_neg]
    rintro rfl
    exact hreset rfl
  | count u which amount =>
    simp only [act?, Option.bind_eq_bind, Option.bind_eq_some_iff, Option.pure_def,
      Option.some.injEq] at hact
    obtain ⟨table, hu, rfl⟩ := hact
    rw [Store.count, Store.countersOf_modifyTable hu, if_neg]
    rintro rfl
    exact hcount which amount rfl

/-- Without a step the log stays. -/
theorem log_kept (hact : s.act? supply action = some s') (hstep : ∀ i, action ≠ .step i) :
    s'.store.log = s.store.log := by
  cases action with
  | step i => exact absurd rfl (hstep i)
  | invoke request =>
    cases does_of_act? hact with
    | invoke hj => rfl
    | tend hk _ => cases hk
  | dropGuard i =>
    cases does_of_act? hact with
    | drop hc hg hb => exact Store.log_setLock ..
    | tend hk _ => cases hk
  | edit i which e =>
    cases does_of_act? hact with
    | edit hw => rfl
    | tend hk _ => cases hk
  | swap i j =>
    cases does_of_act? hact with
    | swap hw => rfl
    | tend hk _ => cases hk
  | setNextId u id | resetCounters u | count u which amount =>
    simp only [act?, Option.bind_eq_bind, Option.bind_eq_some_iff, Option.pure_def,
      Option.some.injEq] at hact
    obtain ⟨_, -, rfl⟩ := hact
    rfl

/-- A reset leaves all counters at zero, and calls as they are. -/
theorem counters_reset (hact : s.act? supply (.resetCounters t) = some s') :
    s'.store.countersOf t = {} ∧ s'.calls = s.calls := by
  simp only [act?, Option.bind_eq_bind, Option.bind_eq_some_iff, Option.pure_def,
    Option.some.injEq] at hact
  obtain ⟨table, ht, rfl⟩ := hact
  exact ⟨by rw [Store.resetCounters, Store.countersOf_modifyTable ht, if_pos rfl], rfl⟩

/-- Without a step or an edit by hand the next number stays. -/
theorem nextId_kept (hact : s.act? supply action = some s') (hstep : ∀ i, action ≠ .step i)
    (hset : ∀ id, action ≠ .setNextId t id) : s'.store.nextIdOf t = s.store.nextIdOf t := by
  cases action with
  | step i => exact absurd rfl (hstep i)
  | invoke request =>
    cases does_of_act? hact with
    | invoke hj => rfl
    | tend hk _ => cases hk
  | dropGuard i =>
    cases does_of_act? hact with
    | drop hc hg hb => exact Store.nextIdOf_setLock ..
    | tend hk _ => cases hk
  | edit i which e =>
    cases does_of_act? hact with
    | edit hw => rfl
    | tend hk _ => cases hk
  | swap i j =>
    cases does_of_act? hact with
    | swap hw => rfl
    | tend hk _ => cases hk
  | setNextId u id =>
    simp only [act?, Option.bind_eq_bind, Option.bind_eq_some_iff, Option.pure_def,
      Option.some.injEq] at hact
    obtain ⟨table, hu, rfl⟩ := hact
    rw [Store.setNextId, Store.nextIdOf_modifyTable hu, if_neg]
    rintro rfl
    exact hset id rfl
  | resetCounters u | count u which amount =>
    simp only [act?, Option.bind_eq_bind, Option.bind_eq_some_iff, Option.pure_def,
      Option.some.injEq] at hact
    obtain ⟨_, -, rfl⟩ := hact
    exact Store.nextIdOf_modifyTable_of _ (by intro _; rfl) t

/-- Limits never change. -/
theorem Does.limits_kept (hd : s.Does supply action s') : s'.store.limitsOf = s.store.limitsOf := by
  funext t
  cases hd with
  | invoke hj => rfl
  | step hc hn hr => exact (Instr.changes_of_run hr).limits t
  | drop hc hg hb => exact Store.limitsOf_setLock ..
  | edit hw | swap hw => rfl
  | tend hk ha => exact ha.limits t

end Tended

/-! ### Where calls come from -/

/-- A call that has been changed is the changed one, and every other call is as it was. -/
theorem getElem?_calls_modify {calls : Array Call} {i j : CallRef} {f : Call → Call} {call : Call}
    (hc : calls[i]? = some call) :
    (calls.modify i f)[j]? = if i = j then some (f call) else calls[j]? := by
  rw [Array.getElem?_modify]
  split
  · next he => rw [← he, hc]; rfl
  · rfl

/-- The calls after a step: the one that made it is at its next position, the others stay. -/
theorem Does.calls_step {supply : Supply} {s s' : Service} {i : CallRef}
    (hd : s.Does supply (.step i) s') :
    ∃ call instr next, s.calls[i]? = some call ∧ call.job.progress = .next instr ∧
      instr.run supply i s.store = some (next, s'.store) ∧
      ∀ j, s'.calls[j]? = if i = j then some { call with job := next } else s.calls[j]? := by
  cases hd with
  | tend hk _ => cases hk
  | @step _ call instr next store hc hn hr =>
    exact ⟨call, instr, next, hc, hn, hr, fun j ↦ getElem?_calls_modify hc⟩

/-- A call found after an action was there before and is as it was, or the action is about it: it
has just been made, has made a step, or has had its guard dropped. -/
theorem Does.call_cases {supply : Supply} {s s' : Service} {action : Action}
    (h : s.Does supply action s') {j : CallRef} {call' : Call} (hj : s'.calls[j]? = some call') :
    (s.calls[j]? = some call' ∧ action ≠ .step j ∧ action ≠ .dropGuard j) ∨
    (∃ request job, action = .invoke request ∧ Job.ofRequest? s.store request = some job ∧
      j = s.calls.size ∧ call' = { job } ∧ s'.store = s.store) ∨
    (∃ call instr job, action = .step j ∧ s.calls[j]? = some call ∧
      call.job.progress = .next instr ∧ instr.run supply j s.store = some (job, s'.store) ∧
      call' = { call with job }) ∨
    (∃ call g, action = .dropGuard j ∧ s.calls[j]? = some call ∧ call.guard? = some g ∧
      call' = { call with dropped := true }) := by
  cases h with
  | @invoke request job hr =>
    rw [Array.getElem?_push] at hj
    split at hj
    · next he =>
      cases hj
      exact .inr (.inl ⟨request, job, rfl, hr, he, rfl, rfl⟩)
    · exact .inl ⟨hj, by simp, by simp⟩
  | @step i call instr job store hc hp hr =>
    rw [getElem?_calls_modify hc] at hj
    split at hj
    · next he =>
      subst he
      cases hj
      exact .inr (.inr (.inl ⟨call, instr, job, rfl, hc, hp, hr, rfl⟩))
    · next hne => exact .inl ⟨hj, by simpa using hne, by simp⟩
  | @drop i call g hc hg hb =>
    rw [getElem?_calls_modify hc] at hj
    split at hj
    · next he =>
      subst he
      cases hj
      exact .inr (.inr (.inr ⟨call, g, rfl, hc, hg, rfl⟩))
    · next hne => exact .inl ⟨hj, by simp, by simpa using hne⟩
  | edit hw | swap hw => exact .inl ⟨hj, by simp, by simp⟩
  | tend hk ha =>
    refine .inl ⟨hj, ?_, ?_⟩ <;>
    · rintro rfl
      cases hk

/-- A call that an action is not about is as it was. -/
theorem Does.call_kept {supply : Supply} {s s' : Service} {action : Action}
    (h : s.Does supply action s') {j : CallRef} {call : Call} (hj : s.calls[j]? = some call)
    (hs : action ≠ .step j) (hg : action ≠ .dropGuard j) : s'.calls[j]? = some call := by
  cases h with
  | invoke hr =>
    rw [Array.getElem?_push, if_neg (Nat.ne_of_lt (Array.getElem?_eq_some_iff.mp hj).1)]
    exact hj
  | @step i _ _ _ _ hc hp hr =>
    rw [getElem?_calls_modify hc, if_neg (by rintro rfl; exact hs rfl)]
    exact hj
  | @drop i _ _ hc _ hb =>
    rw [getElem?_calls_modify hc, if_neg (by rintro rfl; exact hg rfl)]
    exact hj
  | edit hw | swap hw => exact hj
  | tend hk ha => exact hj

theorem job?_eq_some {s : Service} {i : CallRef} {job : Job} :
    s.job? i = some job ↔ ∃ call, s.calls[i]? = some call ∧ call.job = job := by
  simp [job?]

/-- No action writes under a call that is under way. -/
theorem Does.not_writer {supply : Supply} {s s' : Service} {action : Action}
    (hd : s.Does supply action s') {i : CallRef} {job : Job} (hj : s.job? i = some job)
    (ho : job.outcome? = none) : i ∉ action.writers := by
  intro hi
  have hg : ∃ g, s.guard? i = some g ∧ g.mode = .exclusive := by
    cases hd with
    | edit hw | swap hw => exact hw.guard? hi
    | @tend action store hk ha => cases action <;> simp_all [Action.isTending]
    | _ => simp at hi
  obtain ⟨g, hg, -⟩ := hg
  obtain ⟨call, hc, hg⟩ := guard?_eq_some.mp hg
  obtain ⟨other, hother, rfl⟩ := job?_eq_some.mp hj
  cases hc.symm.trans hother
  rw [(Call.guard?_eq_some.mp hg).2] at ho
  cases ho

/-- A call that makes no step keeps its job. -/
theorem Does.job_kept {supply : Supply} {s s' : Service} {action : Action}
    (hd : s.Does supply action s') {i : CallRef} {job : Job} (hj : s.job? i = some job)
    (hne : action ≠ .step i) : s'.job? i = some job := by
  obtain ⟨call, hc, rfl⟩ := job?_eq_some.mp hj
  by_cases hdropped : action = .dropGuard i
  · subst hdropped
    cases hd with
    | tend hk _ => cases hk
    | @drop _ c g hi hg hb =>
      cases hc.symm.trans hi
      exact job?_eq_some.mpr
        ⟨{ call with dropped := true }, by simp [getElem?_calls_modify hi], rfl⟩
  · exact job?_eq_some.mpr ⟨call, hd.call_kept hc hne hdropped, rfl⟩

/-- A step takes a call from its job to the next. -/
theorem Does.job_step {supply : Supply} {s s' : Service} {i : CallRef}
    (hd : s.Does supply (.step i) s') {job : Job} (hj : s.job? i = some job) :
    ∃ instr next, job.progress = .next instr ∧
      instr.run supply i s.store = some (next, s'.store) ∧ s'.job? i = some next := by
  obtain ⟨call, hc, rfl⟩ := job?_eq_some.mp hj
  cases hd with
  | tend hk _ => cases hk
  | @step _ c instr next store hi hn hr =>
    cases hc.symm.trans hi
    exact ⟨instr, next, hn, hr,
      job?_eq_some.mpr ⟨{ call with job := next }, by simp [getElem?_calls_modify hc], rfl⟩⟩

/-- An action is a step of a call, or no step. -/
theorem Does.step_or {supply : Supply} {s s' : Service} {action : Action}
    (hd : s.Does supply action s') :
    (∃ i job instr next, action = .step i ∧ s.job? i = some job ∧ job.progress = .next instr ∧
      instr.run supply i s.store = some (next, s'.store) ∧ s'.job? i = some next) ∨
    ∀ i, action ≠ .step i := by
  by_cases hstep : ∃ i, action = .step i
  · obtain ⟨i, rfl⟩ := hstep
    obtain ⟨call, -, -, hcall, -⟩ := hd.calls_step
    have hj : s.job? i = some call.job := job?_eq_some.mpr ⟨call, hcall, rfl⟩
    obtain ⟨instr, next, hn, hr, hj'⟩ := hd.job_step hj
    exact .inl ⟨i, call.job, instr, next, rfl, hj, hn, hr, hj'⟩
  · exact .inr fun i he ↦ hstep ⟨i, he⟩

/-- No call is forgotten. -/
theorem Does.exists_job {supply : Supply} {s s' : Service} {action : Action}
    (hd : s.Does supply action s') {i : CallRef} {job : Job} (hj : s.job? i = some job) :
    ∃ next, s'.job? i = some next := by
  by_cases hstep : action = .step i
  · subst hstep
    obtain ⟨_, next, -, -, hnext⟩ := hd.job_step hj
    exact ⟨next, hnext⟩
  · exact ⟨job, hd.job_kept hj hstep⟩

/-- A step leaves the jobs of other calls as they are. -/
theorem Does.job_other {supply : Supply} {s s' : Service} {i j : CallRef}
    (hd : s.Does supply (.step i) s') (hne : j ≠ i) : s'.job? j = s.job? j := by
  obtain ⟨_, _, _, -, -, -, hcalls⟩ := hd.calls_step
  rw [job?, job?, hcalls, if_neg (Ne.symm hne)]

/-- A job found after a step is the next one of the call that made it, or another call's as it
was. -/
theorem Does.job_of_step {supply : Supply} {s s' : Service} {i j : CallRef} {next other : Job}
    (hd : s.Does supply (.step i) s') (hj' : s'.job? i = some next)
    (hjo : s'.job? j = some other) : (j = i ∧ other = next) ∨ (j ≠ i ∧ s.job? j = some other) := by
  by_cases hne : j = i
  · subst hne
    exact .inl ⟨rfl, Option.some.inj (hjo.symm.trans hj')⟩
  · exact .inr ⟨hne, (hd.job_other hne).symm.trans hjo⟩

/-- A job found after an action was there before, has just been asked for, or comes from a step. -/
theorem Does.job_cases {supply : Supply} {s s' : Service} {action : Action}
    (hd : s.Does supply action s') {j : CallRef} {job' : Job} (hj : s'.job? j = some job') :
    (s.job? j = some job' ∧ action ≠ .step j) ∨
    (∃ request, action = .invoke request ∧ Job.ofRequest? s.store request = some job' ∧
      s'.store = s.store) ∨
    (∃ job instr, action = .step j ∧ s.job? j = some job ∧ job.progress = .next instr ∧
      instr.run supply j s.store = some (job', s'.store)) := by
  obtain ⟨call, hc, rfl⟩ := job?_eq_some.mp hj
  obtain ⟨hc, hstep, -⟩ | ⟨request, job, rfl, hr, -, rfl, hs⟩ |
    ⟨before, instr, job, rfl, hb, hn, hr, rfl⟩ | ⟨before, _, rfl, hb, -, rfl⟩ := hd.call_cases hc
  · exact .inl ⟨job?_eq_some.mpr ⟨call, hc, rfl⟩, hstep⟩
  · exact .inr (.inl ⟨request, rfl, hr, hs⟩)
  · exact .inr (.inr ⟨before.job, instr, rfl, job?_eq_some.mpr ⟨before, hb, rfl⟩, hn, hr⟩)
  · exact .inl ⟨job?_eq_some.mpr ⟨before, hb, rfl⟩, by simp⟩

/-- Whatever a job has come to that no job begins with, some step has brought it to. -/
theorem exists_step_of_job {P : Job → Prop} {limits : List Limits} {s : Service} {h : History}
    {i : CallRef} {job : Job}
    (hfresh : ∀ store request job, Job.ofRequest? store request = some job → ¬ P job)
    (hr : (withTables limits).run? h = some s) (hj : s.job? i = some job) (hP : P job) :
    ∃ before supply after u v last instr next, h = before ++ (supply, .step i) :: after ∧
      (withTables limits).run? before = some u ∧ u.act? supply (.step i) = some v ∧
      v.run? after = some s ∧ u.job? i = some last ∧ ¬ P last ∧ last.progress = .next instr ∧
      instr.run supply i u.store = some (next, v.store) ∧ v.job? i = some next ∧ P next := by
  induction h using List.reverseRecOn generalizing s job with
  | nil =>
    cases hr
    simp [withTables, job?] at hj
  | append_singleton h e ih =>
    obtain ⟨u, hu, hlast⟩ := run?_append_eq_some.mp hr
    obtain ⟨ha, w, hact, hw⟩ := run?_cons_eq_some.mp hlast
    cases hw
    have hearlier {job : Job} (hj : u.job? i = some job) (hP : P job) :
        ∃ before supply after u v last instr next,
          h ++ [e] = before ++ (supply, .step i) :: after ∧
          (withTables limits).run? before = some u ∧ u.act? supply (.step i) = some v ∧
          v.run? after = some s ∧ u.job? i = some last ∧ ¬ P last ∧ last.progress = .next instr ∧
          instr.run supply i u.store = some (next, v.store) ∧ v.job? i = some next ∧ P next := by
      obtain ⟨before, supply, after, x, v, last, instr, next, rfl, hx, hv, hafter, hrest⟩ :=
        ih hu hj hP
      exact ⟨before, supply, after ++ [e], x, v, last, instr, next, by simp, hx, hv,
        run?_append_eq_some.mpr ⟨u, hafter, hlast⟩, hrest⟩
    obtain ⟨hold, -⟩ | ⟨request, -, hrequest, -⟩ | ⟨last, instr, hstep, hlastJob, hn, hrun⟩ :=
      (does_of_act? hact).job_cases hj
    · exact hearlier hold hP
    · exact absurd hP (hfresh _ request job hrequest)
    · by_cases hbefore : P last
      · exact hearlier hlastJob hbefore
      · obtain ⟨supply, action⟩ := e
        cases hstep
        exact ⟨h, supply, [], u, s, last, instr, job, rfl, hu, hact, rfl, hlastJob, hbefore, hn,
          hrun, hj, hP⟩

/-- When no call is under way every call has ended. -/
theorem Idle.outcome? {s : Service} {i : CallRef} {job : Job} (hidle : s.Idle)
    (hj : s.job? i = some job) : ∃ o, job.outcome? = some o ∧ s.outcome? i = some o := by
  obtain ⟨call, hcall, rfl⟩ := job?_eq_some.mp hj
  cases ho : call.job.outcome? with
  | none => exact absurd ⟨call.job, hj, ho⟩ (hidle i)
  | some o => exact ⟨o, rfl, by simp [Service.outcome?, hcall, ho]⟩

/-- No call is under way when each has come to its outcome. -/
theorem idle_of_all {s : Service}
    (h : (s.calls.toList.all fun call ↦ call.job.outcome?.isSome) = true) : s.Idle := by
  rintro i ⟨job, hj, hunended⟩
  obtain ⟨call, hc, rfl⟩ := job?_eq_some.mp hj
  have hended := List.all_eq_true.mp h call (Array.mem_toList_iff.mpr (Array.mem_of_getElem? hc))
  simp [hunended] at hended

/-! ### Sums over calls -/

/-- The sum of what the job of every call is worth. -/
def total (s : Service) (f : Job → Int) : Int := (s.calls.toList.map fun call ↦ f call.job).sum

theorem total_congr {s : Service} {f g : Job → Int}
    (h : ∀ i job, s.job? i = some job → f job = g job) : s.total f = s.total g := by
  refine congrArg List.sum (List.map_congr_left fun call hcall ↦ ?_)
  obtain ⟨i, hi⟩ := List.mem_iff_getElem?.mp hcall
  exact h i call.job (job?_eq_some.mpr ⟨call, by simpa using hi, rfl⟩)

theorem total_sub (s : Service) (f g : Job → Int) :
    s.total (fun job ↦ f job - g job) = s.total f - s.total g := by
  unfold total
  induction s.calls.toList with
  | nil => rfl
  | cons call calls ih =>
    simp only [List.map_cons, List.sum_cons, ih]
    omega

theorem total_nonneg {s : Service} {f : Job → Int} (h : ∀ job, 0 ≤ f job) : 0 ≤ s.total f := by
  unfold total
  induction s.calls.toList with
  | nil => exact Int.le_refl 0
  | cons call calls ih =>
    simp only [List.map_cons, List.sum_cons]
    exact Int.add_nonneg (h call.job) ih

private theorem sum_modify {calls : List Call} {i : Nat} {call : Call} (change : Call → Call)
    (f : Call → Int) (hc : calls[i]? = some call) :
    ((calls.modify i change).map f).sum = (calls.map f).sum + (f (change call) - f call) := by
  induction calls generalizing i with
  | nil => cases hc
  | cons other calls ih =>
    cases i with
    | zero =>
      cases hc
      simp only [List.modify_zero_cons, List.map_cons, List.sum_cons]
      omega
    | succ i =>
      simp only [List.modify_succ_cons, List.map_cons, List.sum_cons, ih hc]
      omega

/-- A step changes a sum by what the job of its call has gained. -/
theorem Does.total_step {supply : Supply} {s s' : Service} {i : CallRef} {job next : Job}
    (hd : s.Does supply (.step i) s') (hj : s.job? i = some job) (hj' : s'.job? i = some next)
    (f : Job → Int) : s'.total f = s.total f + (f next - f job) := by
  obtain ⟨call, hc, rfl⟩ := job?_eq_some.mp hj
  cases hd with
  | tend hk _ => cases hk
  | @step _ c instr after store hi hn hr =>
    cases hc.symm.trans hi
    obtain rfl : next = after := by simpa [job?, getElem?_calls_modify hc] using hj'.symm
    rw [total, Array.toList_modify, sum_modify _ _ (by simpa using hc), total]

/-- A call that has just been made adds what its job is worth. -/
theorem Does.total_invoke {supply : Supply} {s s' : Service} {request : Request}
    (hd : s.Does supply (.invoke request) s') (f : Job → Int) :
    ∃ job, Job.ofRequest? s.store request = some job ∧ s'.total f = s.total f + f job := by
  cases hd with
  | tend hk _ => cases hk
  | @invoke _ job hj => exact ⟨job, hj, by simp [total]⟩

theorem Does.total_kept {supply : Supply} {s s' : Service} {action : Action}
    (hd : s.Does supply action s') (hstep : ∀ i, action ≠ .step i)
    (hinvoke : ∀ request, action ≠ .invoke request) (f : Job → Int) : s'.total f = s.total f := by
  cases hd with
  | @invoke request _ _ => exact absurd rfl (hinvoke request)
  | @step i _ _ _ _ _ _ _ => exact absurd rfl (hstep i)
  | drop hc hg hb =>
    rw [total, Array.toList_modify, sum_modify _ _ (by simpa using hc), Int.sub_self, Int.add_zero,
      total]
  | edit hw | swap hw => rfl
  | tend hk ha => rfl

/-- A sum about calls under way is zero when there are none. -/
theorem Idle.total_eq_zero {s : Service} {f : Job → Int} (hidle : s.Idle)
    (hzero : ∀ job o, job.outcome? = some o → f job = 0) : s.total f = 0 := by
  have hsame : s.total f = s.total fun job ↦ f job - f job := by
    apply total_congr
    intro i job hj
    obtain ⟨o, ho, -⟩ := hidle.outcome? hj
    rw [hzero job o ho, Int.sub_self]
  rw [hsame, total_sub, Int.sub_self]

/-- Where no call makes a step, a sum stays that is not about calls that have just been made. -/
theorem Does.total_rest {supply : Supply} {s s' : Service} {action : Action} {f : Job → Int}
    (hd : s.Does supply action s') (hne : ∀ i, action ≠ .step i)
    (hzero : ∀ request, action = .invoke request →
      ∀ job, Job.ofRequest? s.store request = some job → f job = 0) :
    s'.total f = s.total f := by
  by_cases hinvoke : ∃ request, action = .invoke request
  · obtain ⟨request, rfl⟩ := hinvoke
    obtain ⟨job, hr, hsum⟩ := hd.total_invoke f
    rw [hsum, hzero request rfl job hr, Int.add_zero]
  · exact hd.total_kept hne (fun request he ↦ hinvoke ⟨request, he⟩) f

end Service

end SessionBuffers
