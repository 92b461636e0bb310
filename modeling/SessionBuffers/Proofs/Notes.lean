import Mathlib.Data.UInt
import SessionBuffers.Proofs.Answers

/-!
# What calls leave behind

Beside what it does to buffers and locks, a step may ask for storage, draw a number, advance a
counter or log an event. The notes of a history list all this in order, each with the call it is
from. The notes of one call are what its position says (`Job.Leaves`), whatever happens between its
steps; and numbers and counters move by what the notes of all calls say.
-/

namespace SessionBuffers

/-- What a step leaves behind beside buffers and locks. -/
inductive Note where
  /-- The regions of a buffer were asked for, and whether they could be had. -/
  | provided (met : Bool)
  /-- Room in a roster was asked for, and whether it could be had. An allocation asks for it only
  when it has been given its regions. -/
  | reserved (met : Bool)
  /-- A number of a table was drawn. -/
  | drawn (t : TableRef) (id : BufferId)
  /-- A counter of a table was advanced. -/
  | counted (t : TableRef) (which : Counter) (amount : UInt64)
  | logged (event : Event)
  deriving DecidableEq

namespace Note

/-- What a note says was added to a counter of a table. -/
def adds (t : TableRef) (which : Counter) : Note → UInt64
  | counted u other amount => if u = t ∧ other = which then amount else 0
  | _ => 0

/-- The number a note says was drawn from a table. -/
def drawnFrom? (t : TableRef) : Note → Option BufferId
  | drawn u id => if u = t then some id else none
  | _ => none

/-- The event a note says was logged. -/
def event? : Note → Option Event
  | logged event => some event
  | _ => none

end Note

/-! ### Notes of steps -/

namespace Instr

variable {σ : Type}

/-- What a step leaves behind. -/
def note? (supply : Supply) (s : Store) : Instr σ → Option Note
  | provide user kernel _ _ => some (.provided (supply.regions user kernel))
  | enroll _ capacity _ _ => some (.reserved (supply.roster capacity))
  | reserve _ user kernel _ _ => some (.reserved (supply.slot user kernel))
  | draw t _ => some (.drawn t (s.nextIdOf t))
  | count t which amount _ => some (.counted t which amount)
  | log event _ => some (.logged event)
  | _ => none

@[simp] theorem note?_map {τ : Type} (f : σ → τ) (supply : Supply) (s : Store) (instr : Instr σ) :
    (instr.map f).note? supply s = instr.note? supply s := by
  cases instr <;> rfl

/-- Where a step goes on that leaves no note. -/
theorem Always.of_silent_run {P : List Note → σ → Prop} {supply : Supply} {who : CallRef}
    {s s' : Store} {x : σ} {instr : Instr σ} {notes : List Note}
    (hr : instr.run supply who s = some (x, s')) (hn : instr.note? supply s = none)
    (h : instr.Always (P notes)) : P (notes ++ (instr.note? supply s).toList) x := by
  rw [hn, Option.toList_none, List.append_nil]
  exact h.of_run hr

end Instr

/-! ### The notes of each operation -/

section Operations

variable {supply : Supply} {who : CallRef} {s s' : Store} {notes : List Note}

namespace Allocation

variable {a : Allocation} {limits : Limits} {key : Key} {more : List Note} {why : Failure}

/-- Whether an allocation within its limits has been given storage and has drawn this key, and has
left these notes since. -/
def Drew (a : Allocation) (limits : Limits) (notes : List Note) (key : Key) (more : List Note) :
    Prop :=
  limits.permits a.user a.kernel = true ∧ key.session = a.session ∧
    notes = .provided true :: .reserved true :: .drawn a.table key.buffer :: more

/-- Whether an allocation has to be refused for this cause, and has left these notes since: its key
was in use, or it was over a limit or not given its storage and has drawn no key. -/
def Fails (a : Allocation) (limits : Limits) (notes : List Note) (why : Failure)
    (more : List Note) : Prop :=
  (∃ key, why = .duplicateKey key ∧ a.Drew limits notes key more) ∨
    why = a.unmet ∧
      (limits.permits a.user a.kernel = false ∧ notes = more ∨
        limits.permits a.user a.kernel = true ∧
          (notes = .provided false :: more ∨ notes = .provided true :: .reserved false :: more))

theorem Drew.append (h : a.Drew limits notes key more) (n : List Note) :
    a.Drew limits (notes ++ n) key (more ++ n) := by
  obtain ⟨hp, hk, rfl⟩ := h
  exact ⟨hp, hk, rfl⟩

theorem Fails.append (h : a.Fails limits notes why more) (n : List Note) :
    a.Fails limits (notes ++ n) why (more ++ n) := by
  obtain ⟨key, hw, hd⟩ | ⟨hw, ⟨hp, rfl⟩ | ⟨hp, rfl | rfl⟩⟩ := h
  · exact .inl ⟨key, hw, hd.append n⟩
  · exact .inr ⟨hw, .inl ⟨hp, rfl⟩⟩
  · exact .inr ⟨hw, .inr ⟨hp, .inl rfl⟩⟩
  · exact .inr ⟨hw, .inr ⟨hp, .inr rfl⟩⟩

/-- The notes an allocation has left, by its position. -/
def Leaves (a : Allocation) (limits : Limits) (notes : List Note) : Phase → Prop
  | .checkLimits => notes = []
  | .provide => limits.permits a.user a.kernel = true ∧ notes = []
  | .lockContent _ | .lockRegistry _ | .lockTable _ | .reserve _ =>
    limits.permits a.user a.kernel = true ∧ notes = [.provided true]
  | .draw _ => limits.permits a.user a.kernel = true ∧ notes = [.provided true, .reserved true]
  | .insert _ key | .unlockTable _ key | .enlist _ key | .unlockRegistry _ key
  | .unlockContent _ key | .count _ key => a.Drew limits notes key []
  | .report _ key => a.Drew limits notes key [.counted a.table .allocations 1]
  | .abandonRegistry _ why | .abandonTable _ why | .abandonContent _ why
  | .countFailure why => a.Fails limits notes why []
  | .reportFailure why => a.Fails limits notes why [.counted a.table .allocationFailures 1]
  | .ended (.handle h) => a.Drew limits notes h.key
    [.counted a.table .allocations 1, .logged (.allocated h.key a.user a.kernel)]
  | .ended (.refused why) => a.Fails limits notes why
    [.counted a.table .allocationFailures 1,
      .logged (.allocateFailed a.session a.user a.kernel why)]
  | .ended _ => False

theorem Leaves.step {phase next : Phase} {step : Instr Phase}
    (h : a.Leaves (s.limitsOf a.table) notes phase) (hp : a.progress phase = .next step)
    (hr : step.run supply who s = some (next, s')) :
    a.Leaves (s.limitsOf a.table) (notes ++ (step.note? supply s).toList) next := by
  cases phase with
  | ended o => cases hp
  | checkLimits =>
    cases hp
    obtain ⟨-, rfl, -⟩ := Instr.run_consult.mp hr
    rw [show notes = [] from h]
    split
    · next hpermits => exact ⟨hpermits, rfl⟩
    · next hpermits => exact .inr ⟨rfl, .inl ⟨by simpa using hpermits, rfl⟩⟩
  | provide =>
    cases hp
    obtain ⟨hpermits, rfl⟩ := h
    obtain ⟨hmet, rfl, -⟩ | ⟨hmet, rfl, -⟩ := Instr.run_provide.mp hr
    · exact ⟨hpermits, by simp [Instr.note?, hmet]⟩
    · exact .inr ⟨rfl, .inr ⟨hpermits, .inl (by simp [Instr.note?, hmet])⟩⟩
  | reserve b =>
    cases hp
    obtain ⟨hpermits, rfl⟩ := h
    obtain ⟨-, ⟨hmet, rfl⟩ | ⟨hmet, rfl⟩, -⟩ := Instr.run_reserve.mp hr
    · exact ⟨hpermits, by simp [Instr.note?, hmet]⟩
    · exact .inr ⟨rfl, .inr ⟨hpermits, .inr (by simp [Instr.note?, hmet])⟩⟩
  | draw b =>
    cases hp
    obtain ⟨hpermits, rfl⟩ := h
    obtain ⟨-, rfl, -⟩ := Instr.run_draw.mp hr
    exact ⟨hpermits, rfl, rfl⟩
  | insert b key =>
    cases hp
    exact Instr.Always.of_silent_run hr rfl ⟨h, .inl ⟨key, rfl, h⟩⟩
  | count b key =>
    cases hp
    obtain ⟨-, rfl, -⟩ := Instr.run_count.mp hr
    exact h.append _
  | report b key =>
    cases hp
    obtain ⟨rfl, -⟩ := Instr.run_log.mp hr
    exact h.append _
  | countFailure why =>
    cases hp
    obtain ⟨-, rfl, -⟩ := Instr.run_count.mp hr
    exact h.append _
  | reportFailure why =>
    cases hp
    obtain ⟨rfl, -⟩ := Instr.run_log.mp hr
    exact h.append _
  | _ =>
    cases hp
    exact Instr.Always.of_silent_run (P := a.Leaves (s.limitsOf a.table)) hr rfl h

end Allocation

namespace Removal

/-- The notes a free has left, by its position. -/
def Leaves (f : Removal) (notes : List Note) : Phase → Prop
  | .report => notes = [.counted f.table .frees 1]
  | .reportMiss _ => notes = [.counted f.table .freeMisses 1]
  | .ended .done => notes = [.counted f.table .frees 1, .logged (.freed f.key)]
  | .ended (.refused _) => ∃ inTable,
    notes = [.counted f.table .freeMisses 1, .logged (.freeMissed f.key inTable)]
  | .ended _ => False
  | _ => notes = []

theorem Leaves.step {f : Removal} {phase next : Phase} {step : Instr Phase}
    (h : f.Leaves notes phase) (hp : f.progress phase = .next step)
    (hr : step.run supply who s = some (next, s')) :
    f.Leaves (notes ++ (step.note? supply s).toList) next := by
  cases phase with
  | ended o => cases hp
  | find =>
    cases hp
    refine Instr.Always.of_silent_run hr rfl fun index ↦ ?_
    dsimp only
    split <;> exact h
  | checkOwner b =>
    cases hp
    refine Instr.Always.of_silent_run hr rfl fun roster ↦ ?_
    dsimp only
    split <;> exact h
  | count | countMiss inTable =>
    cases hp
    obtain ⟨-, rfl, -⟩ := Instr.run_count.mp hr
    rw [show notes = [] from h]
    rfl
  | report =>
    cases hp
    obtain ⟨rfl, -⟩ := Instr.run_log.mp hr
    rw [show notes = _ from h]
    rfl
  | reportMiss inTable =>
    cases hp
    obtain ⟨rfl, -⟩ := Instr.run_log.mp hr
    rw [show notes = _ from h]
    exact ⟨inTable, rfl⟩
  | _ =>
    cases hp
    exact Instr.Always.of_silent_run (P := f.Leaves) hr rfl (by first | exact h | exact fun _ ↦ h)

end Removal

namespace Lookup

/-- The notes a lookup has left, by its position. -/
def Leaves (l : Lookup) (notes : List Note) : Phase → Prop
  | .reportMiss => notes = [.counted l.table .lookupMisses 1]
  | .ended (.guard _) => notes = [.counted l.table .lookups 1]
  | .ended (.refused _) =>
    notes = [.counted l.table .lookupMisses 1, .logged (.lookupMissed l.key)]
  | .ended _ => False
  | _ => notes = []

theorem Leaves.step {l : Lookup} {phase next : Phase} {step : Instr Phase}
    (h : l.Leaves notes phase) (hp : l.progress phase = .next step)
    (hr : step.run supply who s = some (next, s')) :
    l.Leaves (notes ++ (step.note? supply s).toList) next := by
  cases phase with
  | ended o => cases hp
  | find =>
    cases hp
    refine Instr.Always.of_silent_run hr rfl fun index ↦ ?_
    dsimp only
    split <;> exact h
  | count b | countMiss =>
    cases hp
    obtain ⟨-, rfl, -⟩ := Instr.run_count.mp hr
    rw [show notes = [] from h]
    rfl
  | reportMiss =>
    cases hp
    obtain ⟨rfl, -⟩ := Instr.run_log.mp hr
    rw [show notes = _ from h]
    rfl
  | _ =>
    cases hp
    exact Instr.Always.of_silent_run (P := l.Leaves) hr rfl h

end Lookup

namespace Drawing

/-- The notes a request for a number has left, by its position. -/
def Leaves (d : Drawing) (notes : List Note) : Phase → Prop
  | .draw => notes = []
  | .ended (.id id) => notes = [.drawn d.table id]
  | .ended _ => False

theorem Leaves.step {d : Drawing} {phase next : Phase} {step : Instr Phase}
    (h : d.Leaves notes phase) (hp : d.progress phase = .next step)
    (hr : step.run supply who s = some (next, s')) :
    d.Leaves (notes ++ (step.note? supply s).toList) next := by
  cases phase with
  | ended o => cases hp
  | draw =>
    cases hp
    obtain ⟨-, rfl, -⟩ := Instr.run_draw.mp hr
    rw [show notes = [] from h]
    rfl

end Drawing

namespace Attachment

variable {a : Attachment} {limits : TableRef → Limits}

/-- The room that is asked for. -/
def capacity (a : Attachment) (limits : TableRef → Limits) : UInt64 :=
  match a.purpose with
  | .alone capacity => capacity
  | .table t | .session t => (limits t).sessionCapacity

/-- The table of an attachment. -/
def table? (a : Attachment) : Option TableRef :=
  match a.purpose with
  | .alone _ => none
  | .table t | .session t => some t

/-- The notes of an attachment to a table that has been logged. -/
def onTable (a : Attachment) (t : TableRef) : List Note :=
  [.reserved true, .counted t .sessionsOpened 1, .logged (.sessionAttached a.session)]

/-- The notes an attachment has left, by its position. -/
def Leaves (a : Attachment) (limits : TableRef → Limits) (notes : List Note) : Phase → Prop
  | .start => notes = []
  | .enroll t capacity => a.table? = some t ∧ capacity = a.capacity limits ∧ notes = []
  | .count t _ => a.table? = some t ∧ notes = [.reserved true]
  | .report t _ => a.table? = some t ∧ notes = [.reserved true, .counted t .sessionsOpened 1]
  | .open t _ => a.purpose = .session t ∧ notes = a.onTable t
  | .ended (.registry _) =>
    a.table? = none ∧ notes = [.reserved true] ∨ ∃ t, a.purpose = .table t ∧ notes = a.onTable t
  | .ended (.session _) => ∃ t, a.purpose = .session t ∧ notes = a.onTable t
  | .ended (.refused why) =>
    why = Supply.rosterFailure (a.capacity limits) ∧ notes = [.reserved false]
  | .ended _ => False

/-- Where an attachment goes on after it has asked for a registry. -/
private theorem Leaves.enroll {capacity : UInt64} {given : RegistryRef → Phase} {next : Phase}
    (hr : (a.enroll capacity given).run supply who s = some (next, s'))
    (hcapacity : capacity = a.capacity limits)
    (hgiven : ∀ r, a.Leaves limits [.reserved true] (given r)) :
    a.Leaves limits ([] ++ ((a.enroll capacity given).note? supply s).toList) next := by
  obtain ⟨hmet, rfl, -⟩ | ⟨hmet, rfl, -⟩ := Instr.run_enroll.mp hr
  · simpa [Attachment.enroll, Instr.note?, hmet] using hgiven _
  · exact ⟨by rw [hcapacity], by simp [Attachment.enroll, Instr.note?, hmet]⟩

theorem Leaves.step {phase next : Phase} {step : Instr Phase}
    (h : a.Leaves s.limitsOf notes phase) (hp : a.progress phase = .next step)
    (hr : step.run supply who s = some (next, s')) :
    a.Leaves s.limitsOf (notes ++ (step.note? supply s).toList) next := by
  cases phase with
  | ended o => cases hp
  | start =>
    rw [show notes = [] from h]
    simp only [progress] at hp
    split at hp
    · next capacity hpurpose =>
      cases hp
      refine Leaves.enroll hr (by rw [Attachment.capacity, hpurpose]) fun r ↦ .inl ⟨?_, rfl⟩
      rw [table?, hpurpose]
    all_goals
      next t hpurpose =>
      cases hp
      obtain ⟨-, rfl, -⟩ := Instr.run_consult.mp hr
      refine ⟨?_, ?_, rfl⟩
      · rw [table?, hpurpose]
      · rw [Attachment.capacity, hpurpose]
  | enroll t capacity =>
    cases hp
    obtain ⟨ht, hcapacity, rfl⟩ := h
    exact Leaves.enroll hr hcapacity fun r ↦ ⟨ht, rfl⟩
  | count t r =>
    cases hp
    obtain ⟨ht, rfl⟩ := h
    obtain ⟨-, rfl, -⟩ := Instr.run_count.mp hr
    exact ⟨ht, rfl⟩
  | report t r =>
    cases hp
    obtain ⟨ht, rfl⟩ := h
    obtain ⟨rfl, -⟩ := Instr.run_log.mp hr
    unfold logged
    unfold table? at ht
    split at ht
    · cases ht
    all_goals
      next hpurpose =>
      cases ht
      simp [hpurpose, Leaves, table?, onTable, Instr.note?]
  | «open» t r =>
    cases hp
    obtain ⟨hpurpose, rfl⟩ := h
    exact Instr.Always.of_silent_run (P := a.Leaves s.limitsOf) hr rfl fun c ↦ ⟨t, hpurpose, rfl⟩

end Attachment

namespace Teardown

/-- The notes of a teardown about keys that its roster lists and its table does not have. -/
def missing (keys : List Key) : List Note := keys.map fun key ↦ .logged (.listedButMissing key)

/-- The notes of a teardown about what it has released, and whether it was the first of its
registry. -/
def tallied (d : Teardown) (released : Nat) (first : Bool) : List Note :=
  .counted d.table .buffersReclaimed (.ofNat released) ::
    if first then [.counted d.table .sessionsClosed 1] else []

/-- The notes a teardown has left, by its position. One that finds its session ended leaves none. -/
def Leaves (d : Teardown) (notes : List Note) : Phase → Prop
  | .finish _ | .lockRegistry | .lockTable | .close | .drain _ => notes = []
  | .find _ _ | .reportMissing _ _ | .lockContent _ _ _ | .erase _ _ _ | .dispose _ _ _
  | .unlockContent _ _ _ | .unlockRegistry _ | .unlockTable _ | .countReleased _ =>
    ∃ keys, notes = missing keys
  | .countClosed w => w.first = true ∧ ∃ keys, notes = missing keys ++ d.tallied w.released false
  | .report w => ∃ keys, notes = missing keys ++ d.tallied w.released w.first
  | .ended (.number n) => n = 0 ∧ notes = [] ∨ ∃ keys first,
    notes = missing keys ++ d.tallied n first ++ [.logged (.sessionTornDown d.session n)]
  | .ended _ => False

theorem Leaves.resume {d : Teardown} {w : Sweep} (h : ∃ keys, notes = missing keys) :
    d.Leaves notes (.resume w) := by
  unfold Phase.resume
  split <;> exact h

theorem Leaves.step {d : Teardown} {phase next : Phase} {step : Instr Phase}
    (h : d.Leaves notes phase) (hp : d.progress phase = .next step)
    (hr : step.run supply who s = some (next, s')) :
    d.Leaves (notes ++ (step.note? supply s).toList) next := by
  cases phase with
  | ended o => cases hp
  | finish c =>
    cases hp
    exact Instr.Always.of_silent_run (P := d.Leaves) hr rfl ⟨h, .inl ⟨rfl, h⟩⟩
  | drain first =>
    cases hp
    exact Instr.Always.of_silent_run (P := d.Leaves) hr rfl fun keys ↦ .resume ⟨[], h⟩
  | close =>
    cases hp
    exact Instr.Always.of_silent_run (P := d.Leaves) hr rfl fun _ ↦ h
  | find key w =>
    cases hp
    refine Instr.Always.of_silent_run hr rfl fun index ↦ ?_
    dsimp only
    split <;> exact h
  | reportMissing key w =>
    cases hp
    obtain ⟨keys, rfl⟩ := h
    obtain ⟨rfl, -⟩ := Instr.run_log.mp hr
    exact .resume ⟨keys ++ [key], by simp [missing, Instr.note?]⟩
  | unlockContent key b w =>
    cases hp
    exact Instr.Always.of_silent_run (P := d.Leaves) hr rfl (Leaves.resume h)
  | countReleased w =>
    cases hp
    obtain ⟨keys, rfl⟩ := h
    obtain ⟨-, rfl, -⟩ := Instr.run_count.mp hr
    split
    · next hfirst => exact ⟨hfirst, keys, rfl⟩
    · next hfirst => exact ⟨keys, by simp [tallied, hfirst, Instr.note?]⟩
  | countClosed w =>
    cases hp
    obtain ⟨hfirst, keys, rfl⟩ := h
    obtain ⟨-, rfl, -⟩ := Instr.run_count.mp hr
    exact ⟨keys, by simp [tallied, hfirst, Instr.note?]⟩
  | report w =>
    cases hp
    obtain ⟨keys, rfl⟩ := h
    obtain ⟨rfl, -⟩ := Instr.run_log.mp hr
    exact .inr ⟨keys, w.first, rfl⟩
  | _ =>
    cases hp
    exact Instr.Always.of_silent_run (P := d.Leaves) hr rfl h

end Teardown

end Operations

/-! ### The notes of any call -/

/-- Whether these are the notes a job has left so far, on tables with these limits. Accesses and
questions leave none. -/
def Job.Leaves (limits : TableRef → Limits) (notes : List Note) : Job → Prop
  | attaching a phase => a.Leaves limits notes phase
  | allocating a phase => a.Leaves (limits a.table) notes phase
  | freeing f phase => f.Leaves notes phase
  | tearingDown d phase => d.Leaves notes phase
  | lookingUp l phase => l.Leaves notes phase
  | drawing d phase => d.Leaves notes phase
  | _ => notes = []

/-- A question to a roster leaves no note. -/
theorem RosterCall.note?_act (c : RosterCall) (supply : Supply) (s : Store) :
    c.act.note? supply s = none := by
  unfold act
  split <;> rfl

/-- After a step a job has left the notes it had left before, and that of the step. -/
theorem Job.Leaves.step {supply : Supply} {who : CallRef} {s s' : Store} {notes : List Note}
    {job next : Job} {instr : Instr Job} (h : job.Leaves s.limitsOf notes)
    (hn : job.progress = .next instr) (hr : instr.run supply who s = some (next, s')) :
    next.Leaves s.limitsOf (notes ++ (instr.note? supply s).toList) := by
  cases job <;> obtain ⟨step, hp, rfl⟩ := Progress.map_eq_next.mp hn <;>
    obtain ⟨x, hx, rfl⟩ := Instr.run_map_eq_some.mp hr <;> rw [Instr.note?_map]
  case attaching a phase => exact Attachment.Leaves.step h hp hx
  case allocating a phase => exact Allocation.Leaves.step h hp hx
  case freeing f phase => exact Removal.Leaves.step h hp hx
  case tearingDown d phase => exact Teardown.Leaves.step h hp hx
  case lookingUp l phase => exact Lookup.Leaves.step h hp hx
  case drawing d phase => exact Drawing.Leaves.step h hp hx
  case accessing a phase =>
    have hnone : step.note? supply s = none := by cases phase <;> cases hp <;> rfl
    rwa [hnone, Option.toList_none, List.append_nil]
  case inspecting i phase =>
    have hnone : step.note? supply s = none := by cases phase <;> cases hp <;> rfl
    rwa [hnone, Option.toList_none, List.append_nil]
  case editing c phase =>
    have hnone : step.note? supply s = none := by
      cases phase <;> cases hp <;> first
        | rfl
        | exact c.note?_act supply s
    rwa [hnone, Option.toList_none, List.append_nil]

/-- A request begins with no note. -/
theorem Job.leaves_of_ofRequest? {s : Store} {request : Request} {job : Job}
    (h : ofRequest? s request = some job) (limits : TableRef → Limits) : job.Leaves limits [] := by
  cases ofRequest?_eq_some.mp h <;> rfl

/-- Whether counters and next numbers have moved by what these notes say. -/
structure Store.MovedBy (s s' : Store) (notes : List Note) : Prop where
  counters : ∀ t which, (s'.countersOf t).get which =
    (s.countersOf t).get which + (notes.map (Note.adds t which)).sum
  nextId : ∀ t, s'.nextIdOf t =
    ⟨(s.nextIdOf t).number + .ofNat (notes.filterMap (Note.drawnFrom? t)).length⟩

namespace Service

variable {limits : List Limits} {supply : Supply} {s s' : Service} {action : Action} {h : History}
  {i : CallRef} {t : TableRef}

/-- What an action leaves behind, with the call it is from. -/
def note? (supply : Supply) (s : Service) : Action → Option (CallRef × Note)
  | .step i => do
    match (← s.job? i).progress with
    | .next instr => (instr.note? supply s.store).map fun n ↦ (i, n)
    | .ended _ => none
  | _ => none

/-- What a history leaves behind, in order, each note with the call it is from. -/
def notes : Service → History → List (CallRef × Note)
  | _, [] => []
  | s, (supply, action) :: h =>
    (s.note? supply action).toList ++
      match s.act? supply action with
      | some s => s.notes h
      | none => []

/-- The notes of one call among those of all calls. -/
def ofCall (i : CallRef) (ns : List (CallRef × Note)) : List Note :=
  ns.filterMap fun n ↦ if n.1 = i then some n.2 else none

/-- The notes of a call in a history. -/
def notesOf (s : Service) (h : History) (i : CallRef) : List Note := ofCall i (s.notes h)

/-- The numbers of a table that have been drawn, according to these notes. -/
def drawnFrom (t : TableRef) (ns : List (CallRef × Note)) : List BufferId :=
  ns.filterMap fun n ↦ n.2.drawnFrom? t

theorem notes_cons {u : Service} (hact : s.act? supply action = some u) :
    s.notes ((supply, action) :: h) = (s.note? supply action).toList ++ u.notes h := by
  simp [notes, hact]

theorem notes_append {u : Service} {k : History} (hr : s.run? h = some u) :
    s.notes (h ++ k) = s.notes h ++ u.notes k := by
  induction h generalizing s with
  | nil =>
    cases hr
    rfl
  | cons e h ih =>
    obtain ⟨-, v, hv, hr⟩ := run?_cons_eq_some.mp hr
    rw [List.cons_append, notes_cons hv, notes_cons hv, ih hr, List.append_assoc]

theorem ofCall_append (i : CallRef) (ns ms : List (CallRef × Note)) :
    ofCall i (ns ++ ms) = ofCall i ns ++ ofCall i ms :=
  List.filterMap_append

/-- Only a step leaves a note, and it is of its own call. -/
theorem note?_eq_some {j : CallRef} {n : Note} : s.note? supply action = some (j, n) ↔
    action = .step j ∧ ∃ job instr, s.job? j = some job ∧ job.progress = .next instr ∧
      instr.note? supply s.store = some n := by
  cases action with
  | step i =>
    simp only [note?, Option.bind_eq_bind, Option.bind_eq_some_iff]
    constructor
    · rintro ⟨job, hj, hn⟩
      split at hn
      · next instr hp =>
        obtain ⟨m, hm, he⟩ := Option.map_eq_some_iff.mp hn
        cases he
        exact ⟨rfl, job, instr, hj, hp, hm⟩
      · cases hn
    · rintro ⟨he, job, instr, hj, hp, hn⟩
      cases he
      exact ⟨job, hj, by simp [hp, hn]⟩
  | _ => simp [note?]

/-- The note of a step is that of its call. -/
theorem note?_step {job : Job} {instr : Instr Job} (hj : s.job? i = some job)
    (hp : job.progress = .next instr) :
    s.note? supply (.step i) = (instr.note? supply s.store).map fun n ↦ (i, n) := by
  simp [note?, hj, hp]

theorem note?_eq_none (hne : ∀ i, action ≠ .step i) : s.note? supply action = none := by
  refine Option.eq_none_iff_forall_not_mem.mpr fun n hn ↦ ?_
  exact hne n.1 (note?_eq_some.mp hn).1

/-! ### The notes of a call follow its position -/

/-- Whether these are all the notes a call has left, which may still have to be made. -/
def Left (s : Service) (i : CallRef) (notes : List Note) : Prop :=
  match s.job? i with
  | some job => job.Leaves s.store.limitsOf notes
  | none => notes = []

theorem left_of_job? {job : Job} {notes : List Note} (hj : s.job? i = some job) :
    s.Left i notes ↔ job.Leaves s.store.limitsOf notes := by
  rw [Left, hj]

theorem left_nil (hj : s.job? i = none) : s.Left i [] := by
  rw [Left, hj]

/-- What an action adds to the notes of a call. -/
theorem Left.of_does {notes : List Note} (hl : s.Left i notes) (hd : s.Does supply action s') :
    s'.Left i (notes ++ ofCall i (s.note? supply action).toList) := by
  have hother (hne : action ≠ .step i) : ofCall i (s.note? supply action).toList = [] := by
    refine List.filterMap_eq_nil_iff.mpr fun n hn ↦ if_neg ?_
    rintro rfl
    exact hne (note?_eq_some.mp (Option.mem_toList.mp hn)).1
  cases hj' : s'.job? i with
  | none =>
    have hj : s.job? i = none := by
      refine Option.eq_none_iff_forall_not_mem.mpr fun job hj ↦ ?_
      obtain ⟨next, hnext⟩ := hd.exists_job hj
      cases hj'.symm.trans hnext
    have hne : action ≠ .step i := by
      rintro rfl
      obtain ⟨call, -, -, hc, -⟩ := hd.calls_step
      cases hj.symm.trans (job?_eq_some.mpr ⟨call, hc, rfl⟩)
    rw [Left, hj] at hl
    rw [Left, hj', hother hne, hl]
    rfl
  | some job' =>
    rw [left_of_job? hj', hd.limits_kept]
    obtain ⟨hold, hne⟩ | ⟨request, rfl, hr, -⟩ | ⟨job, instr, rfl, hj, hp, hr⟩ := hd.job_cases hj'
    · rw [hother hne, List.append_nil]
      exact (left_of_job? hold).mp hl
    · rw [hother (by simp), List.append_nil]
      cases hj : s.job? i with
      | some job =>
        cases (hd.job_kept hj (by simp)).symm.trans hj'
        exact (left_of_job? hj).mp hl
      | none =>
        rw [Left, hj] at hl
        rw [hl]
        exact Job.leaves_of_ofRequest? hr _
    · have hown : ofCall i (s.note? supply (.step i)).toList =
          (instr.note? supply s.store).toList := by
        rw [note?_step hj hp]
        cases instr.note? supply s.store <;> simp [ofCall]
      rw [hown]
      exact ((left_of_job? hj).mp hl).step hp hr

theorem Left.run {notes : List Note} (hl : s.Left i notes) (hr : s.run? h = some s') :
    s'.Left i (notes ++ s.notesOf h i) := by
  induction h generalizing s notes with
  | nil =>
    cases hr
    simpa [notesOf, Service.notes, ofCall] using hl
  | cons e h ih =>
    obtain ⟨-, u, hu, hr⟩ := run?_cons_eq_some.mp hr
    have hrest := ih (hl.of_does (does_of_act? hu)) hr
    rwa [List.append_assoc, notesOf, ← ofCall_append, ← notes_cons hu] at hrest

/-- The notes of a call made in a history are what its position says. -/
theorem leaves_of_run {job : Job} (hr : s.run? h = some s') (hnew : s.job? i = none)
    (hj : s'.job? i = some job) : job.Leaves s'.store.limitsOf (s.notesOf h i) :=
  (left_of_job? hj).mp ((left_nil hnew).run hr)

theorem Reachable.leaves {job : Job} (hr : (withTables limits).run? h = some s)
    (hj : s.job? i = some job) :
    job.Leaves s.store.limitsOf ((withTables limits).notesOf h i) :=
  leaves_of_run hr rfl hj

/-! ### Counters and numbers follow the notes -/

/-- What an action adds to a counter is what its note says, unless somebody edits the counters. -/
theorem counters_of_note? (hact : s.act? supply action = some s')
    (hreset : action ≠ .resetCounters t) (hcount : ∀ which amount, action ≠ .count t which amount)
    (which : Counter) : (s'.store.countersOf t).get which = (s.store.countersOf t).get which +
      ((s.note? supply action).toList.map fun n ↦ n.2.adds t which).sum := by
  have hd := does_of_act? hact
  obtain ⟨i, job, instr, next, rfl, hj, hp, hr, -⟩ | hne := hd.step_or
  · rw [Instr.counters_of_run hr, note?_step hj hp]
    cases instr <;> simp [Instr.note?, Instr.adds, Note.adds]
  · rw [counters_kept hact hne hreset hcount, note?_eq_none hne]
    simp

/-- Counters move by what is noted, while nobody edits them. -/
theorem counters_of_notes (hr : s.run? h = some s') (hreset : ∀ e ∈ h, e.2 ≠ .resetCounters t)
    (hcount : ∀ e ∈ h, ∀ which amount, e.2 ≠ .count t which amount) (which : Counter) :
    (s'.store.countersOf t).get which = (s.store.countersOf t).get which +
      ((s.notes h).map fun n ↦ n.2.adds t which).sum := by
  induction h generalizing s with
  | nil =>
    cases hr
    simp [notes]
  | cons e h ih =>
    obtain ⟨-, u, hu, hr⟩ := run?_cons_eq_some.mp hr
    rw [ih hr (fun e he ↦ hreset e (by simp [he])) (fun e he ↦ hcount e (by simp [he])),
      counters_of_note? hu (hreset e (by simp)) (hcount e (by simp)), notes_cons hu,
      List.map_append, List.sum_append, UInt64.add_assoc]

/-- The log grows by the events that are noted, each with the call it is from. -/
theorem log_of_notes (hr : s.run? h = some s') : s'.store.log.toList =
    s.store.log.toList ++
      (s.notes h).filterMap fun n ↦ n.2.event?.map fun event ↦ (n.1, event) := by
  induction h generalizing s with
  | nil =>
    cases hr
    simp [notes]
  | cons e h ih =>
    obtain ⟨supply, action⟩ := e
    obtain ⟨-, u, hu, hr⟩ := run?_cons_eq_some.mp hr
    rw [ih hr, notes_cons hu, List.filterMap_append, ← List.append_assoc]
    congr 1
    have hd := does_of_act? hu
    obtain ⟨i, job, instr, next, rfl, hj, hp, hr, -⟩ | hne := hd.step_or
    · rw [Instr.log_of_run hr, note?_step hj hp]
      cases instr <;> rfl
    · rw [log_kept hu hne, note?_eq_none hne]
      simp

theorem drawnFrom_append (t : TableRef) (ns ms : List (CallRef × Note)) :
    drawnFrom t (ns ++ ms) = drawnFrom t ns ++ drawnFrom t ms :=
  List.filterMap_append

/-- An action draws nothing from a table and leaves its next number, or draws just that number and
leaves the one after it; unless somebody sets it. -/
theorem numbers_of_note? (hact : s.act? supply action = some s')
    (hset : ∀ id, action ≠ .setNextId t id) :
    drawnFrom t (s.note? supply action).toList = [] ∧ s'.store.nextIdOf t = s.store.nextIdOf t ∨
      drawnFrom t (s.note? supply action).toList = [s.store.nextIdOf t] ∧
        s'.store.nextIdOf t = ⟨(s.store.nextIdOf t).number + 1⟩ := by
  have hd := does_of_act? hact
  obtain ⟨i, job, instr, next, rfl, hj, hp, hr, -⟩ | hne := hd.step_or
  · rw [(Instr.changes_of_run hr).nextId, note?_step hj hp]
    cases instr with
    | draw u next =>
      by_cases hu : u = t
      · subst hu
        exact .inr (by simp [Instr.note?, Instr.onNextId, drawnFrom, Note.drawnFrom?])
      · exact .inl (by simp [Instr.note?, Instr.onNextId, drawnFrom, Note.drawnFrom?, hu])
    | _ => exact .inl (by simp [Instr.note?, Instr.onNextId, drawnFrom, Note.drawnFrom?])
  · exact .inl ⟨by simp [note?_eq_none hne, drawnFrom], nextId_kept hact hne hset⟩

/-- The numbers drawn from a table are those from its next number on, one after the other around
the largest word, while nobody sets it. -/
theorem numbers_of_notes (hr : s.run? h = some s') (hset : ∀ e ∈ h, ∀ id, e.2 ≠ .setNextId t id) :
    drawnFrom t (s.notes h) = (List.range (drawnFrom t (s.notes h)).length).map (fun k ↦
        ⟨(s.store.nextIdOf t).number + .ofNat k⟩) ∧
      s'.store.nextIdOf t =
        ⟨(s.store.nextIdOf t).number + .ofNat (drawnFrom t (s.notes h)).length⟩ := by
  induction h generalizing s with
  | nil =>
    cases hr
    exact ⟨rfl, by simp [notes, drawnFrom]⟩
  | cons e h ih =>
    obtain ⟨-, u, hu, hr⟩ := run?_cons_eq_some.mp hr
    obtain ⟨hdrawn, hlast⟩ := ih hr fun e he ↦ hset e (by simp [he])
    rw [notes_cons hu, drawnFrom_append]
    obtain ⟨hnone, hsame⟩ | ⟨hone, hnext⟩ := numbers_of_note? hu (hset e (by simp))
    · rw [hnone, ← hsame]
      exact ⟨hdrawn, hlast⟩
    · rw [hnext] at hdrawn hlast
      rw [hone, List.singleton_append, List.length_cons]
      refine ⟨?_, ?_⟩
      · rw [List.range_succ_eq_map, List.map_cons, List.map_map, hdrawn]
        simp [Function.comp_def, UInt64.add_assoc, UInt64.add_comm 1]
      · rw [hlast]
        simp [UInt64.add_assoc, UInt64.add_comm 1]

/-! ### The notes of a call by itself -/

/-- The notes of the steps of one call are all its own. -/
theorem notes_alone (hr : s.run? h = some s') (halone : ∀ e ∈ h, e.2 = .step i) :
    s.notes h = (s.notesOf h i).map fun n ↦ (i, n) := by
  induction h generalizing s with
  | nil => rfl
  | cons e h ih =>
    obtain ⟨-, u, hu, hr⟩ := run?_cons_eq_some.mp hr
    have hhead : (s.note? e.1 e.2).toList =
        (ofCall i (s.note? e.1 e.2).toList).map fun n ↦ (i, n) := by
      cases hn : s.note? e.1 e.2 with
      | none => rfl
      | some n =>
        obtain ⟨j, n⟩ := n
        obtain rfl : j = i := by
          have hstep := (note?_eq_some.mp hn).1
          rw [halone e (by simp)] at hstep
          exact (Action.step.inj hstep).symm
        simp [ofCall]
    rw [notesOf, notes_cons hu, ofCall_append, List.map_append, ← hhead]
    exact congrArg ((s.note? e.1 e.2).toList ++ ·) (ih hr fun e he ↦ halone e (by simp [he]))

/-- The steps of a call by itself move counters and next numbers by what they note. -/
theorem movedBy_alone (hr : s.run? h = some s') (halone : ∀ e ∈ h, e.2 = .step i) :
    s.store.MovedBy s'.store (s.notesOf h i) := by
  have hnotes := notes_alone hr halone
  refine ⟨fun t which ↦ ?_, fun t ↦ ?_⟩
  · rw [counters_of_notes hr (fun e he ↦ by simp [halone e he])
      (fun e he ↦ by simp [halone e he]) which, hnotes, List.map_map]
    rfl
  · rw [(numbers_of_notes hr fun e he ↦ by simp [halone e he]).2, hnotes, drawnFrom,
      List.filterMap_map]
    rfl

end Service

end SessionBuffers
