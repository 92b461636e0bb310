import Mathlib.Logic.Function.Basic
import SessionBuffers.Proofs.Guards

/-!
# Operations that take effect at once

What the operations would do if each took effect at a single moment. An `Ideal` state has no locks
and no calls under way: only what clients can observe of tables and registries, the guards they
hold, and the answer every call has been given. `Ideal.after` performs a deed, which is a whole call
or something that a client does at once; `Ideal.Ready` says when it can be performed, and then only
guards stand in the way.
-/

namespace SessionBuffers

/-- Whether a request is for something that takes effect at one moment. A session is marked as ended
before it is torn down, an access may come in the middle of a teardown, and a question that never
waits need not be answered. -/
def Request.isAtomic : Request → Bool
  | .attach ⟨_, .session _⟩ | .endSession _ | .access _ _ | .roster _ (.tryContains _) => false
  | _ => true

/-- Whether every call that an action makes takes effect at one moment. -/
def Action.isAtomic : Action → Bool
  | .invoke request => request.isAtomic
  | _ => true

/-- The index without the given keys. -/
def Index.without (index : Index) (keys : List Key) : Index :=
  keys.foldr (fun key index ↦ index.erase key) index

theorem Index.getElem?_without (index : Index) (keys : List Key) (k : Key) :
    (index.without keys)[k]? = if k ∈ keys then none else index[k]? := by
  induction keys with
  | nil => simp [without]
  | cons key keys ih =>
    rw [without, List.foldr_cons, ← without, getElem?_erase, ih]
    by_cases hk : key = k
    · simp [hk]
    · simp [hk, Ne.symm hk]

/-- In what order keys are left out does not matter. -/
theorem Index.without_congr (index : Index) {keys others : List Key}
    (h : ∀ key, key ∈ keys ↔ key ∈ others) : index.without keys = index.without others := by
  refine Std.ExtTreeMap.ext_getElem? fun k ↦ ?_
  rw [getElem?_without, getElem?_without]
  simp only [h]

namespace RosterAction

/-- What an action on the roster of a session is answered. -/
def answer (session : SessionId) (roster : Roster) : RosterAction → Outcome
  | .add key => if key.session = session then .done else .misuse
  | .remove key | .contains key | .tryContains key => .flag (roster.contains key)
  | .drain | .keys => .keys roster.toList
  | .size => .number roster.size

/-- What an action makes of the roster of a session. -/
def effect (session : SessionId) (roster : Roster) : RosterAction → Roster
  | .add key => if key.session = session then roster.add key else roster
  | .remove key => roster.remove key
  | .drain => roster.drained
  | .contains _ | .tryContains _ | .keys | .size => roster

end RosterAction

/-- The guard an outcome hands out. -/
def Outcome.guard? : Outcome → Option Guard
  | .guard g => some g
  | _ => none

theorem RosterAction.guard?_answer (session : SessionId) (roster : Roster)
    (action : RosterAction) : (action.answer session roster).guard? = none := by
  cases action <;> try rfl
  simp only [answer]
  split <;> rfl

theorem Question.guard?_answer (index : Index) (question : Question) :
    (question.answer index).guard? = none := by
  cases question <;> rfl

/-- What there is to see of tables and registries between one operation and the next. -/
structure Ideal where
  /-- The limits of the tables. -/
  limits : Array Limits
  /-- The sessions of the registries. -/
  sessions : Array SessionId
  index : TableRef → Index
  nextId : TableRef → BufferId
  roster : RegistryRef → Roster
  content : StorageRef → Content
  /-- The storages set up for buffers, in order. -/
  born : List StorageRef
  /-- The guards that are not dropped yet. -/
  guard : CallRef → Option Guard
  /-- The answers of the calls that have taken effect. -/
  answer : CallRef → Option Outcome

/-- What happens at one moment: a call takes effect, with the storage it uses if it needs any, or a
client does something that is no call. -/
inductive Deed where
  | call (i : CallRef) (supply : Supply) (b : StorageRef) (request : Request)
  | act (action : Action)

namespace Ideal

open Function (update)

/-- The state before any call. -/
def initial (limits : List Limits) : Ideal where
  limits := limits.toArray
  sessions := #[]
  index _ := ∅
  nextId _ := ⟨0⟩
  roster _ := {}
  content _ := .gone
  born := []
  guard _ := none
  answer _ := none

def limitsOf (p : Ideal) (t : TableRef) : Limits := p.limits[t]?.getD {}

def sessionOf (p : Ideal) (r : RegistryRef) : SessionId := p.sessions[r]?.getD ⟨0⟩

/-- The room for keys that a registry is attached with. -/
def capacityFor (p : Ideal) : Purpose → UInt64
  | .alone capacity => capacity
  | .table t | .session t => (p.limitsOf t).sessionCapacity

/-! ### What requests do -/

/-- The storage of a buffer is set up. -/
def provide (p : Ideal) (user kernel : UInt64) (b : StorageRef) : Ideal :=
  { p with
    content := update p.content b (.zeroed user kernel)
    born := p.born ++ [b] }

/-- The storage is set up and the next number is drawn; the buffer comes into the table and the
roster unless its key is in use. -/
def allocate (p : Ideal) (t : TableRef) (r : RegistryRef) (user kernel : UInt64) (b : StorageRef) :
    Outcome × Ideal :=
  let key : Key := ⟨p.sessionOf r, p.nextId t⟩
  let drawn := { p.provide user kernel b with
    nextId := update p.nextId t ⟨(p.nextId t).number + 1⟩ }
  if (p.index t).contains key then (.refused (.duplicateKey key), drawn)
  else (.handle ⟨key, b⟩, { drawn with
    index := update p.index t ((p.index t).insert key b)
    roster := update p.roster r ((p.roster r).add key) })

/-- A buffer that is in the table and in the roster leaves both. -/
def free (p : Ideal) (t : TableRef) (r : RegistryRef) (key : Key) : Outcome × Ideal :=
  if (p.index t).contains key && (p.roster r).contains key then
    (.done, { p with
      index := update p.index t ((p.index t).erase key)
      roster := update p.roster r ((p.roster r).remove key) })
  else (.refused (.notFound key), p)

/-- Every listed key leaves the table, and the roster is emptied and closed. -/
def teardown (p : Ideal) (t : TableRef) (r : RegistryRef) : Outcome × Ideal :=
  let keys := (p.roster r).toList
  (.number (keys.countP fun key ↦ (p.index t).contains key), { p with
    index := update p.index t ((p.index t).without keys)
    roster := update p.roster r (p.roster r).drained.close })

/-- A lookup answers with the buffer that the table has under the key. -/
def lookup (p : Ideal) (t : TableRef) (key : Key) (mode : Mode) : Outcome :=
  match (p.index t)[key]? with
  | some b => .guard ⟨⟨key, b⟩, mode⟩
  | none => .refused (.notFound key)

/-- What a request is answered, and what it makes of the state but for answers and guards. -/
def effect (p : Ideal) (supply : Supply) (b : StorageRef) : Request → Outcome × Ideal
  | .attach a =>
    if supply.roster (p.capacityFor a.purpose) then
      (.registry p.sessions.size, { p with sessions := p.sessions.push a.session })
    else (.refused (Supply.rosterFailure (p.capacityFor a.purpose)), p)
  | .allocate t r user kernel =>
    if (p.limitsOf t).permits user kernel && supply.regions user kernel then
      if supply.slot user kernel then p.allocate t r user kernel b
      else (.refused (.allocationFailed user kernel), p.provide user kernel b)
    else (.refused (.allocationFailed user kernel), p)
  | .free t r id => p.free t r ⟨p.sessionOf r, id⟩
  | .teardown t r => p.teardown t r
  | .lookup t key mode => (p.lookup t key mode, p)
  | .inspect t question => (question.answer (p.index t), p)
  | .roster r action =>
    (action.answer (p.sessionOf r) (p.roster r),
      { p with roster := update p.roster r (action.effect (p.sessionOf r) (p.roster r)) })
  | .draw t =>
    (.id (p.nextId t), { p with nextId := update p.nextId t ⟨(p.nextId t).number + 1⟩ })
  | .endSession _ | .access _ _ => (.misuse, p)

/-- Storage that a request uses is the only that is set up for it. -/
theorem mem_born_effect {p : Ideal} {supply : Supply} {b c : StorageRef} {request : Request}
    (h : c ∈ (p.effect supply b request).2.born) : c ∈ p.born ∨ c = b := by
  cases request with
  | attach a | allocate t r user kernel | free t r id =>
    simp only [effect, allocate, provide, free] at h
    split at h <;> (try split at h) <;> (try split at h) <;> simp_all
  | _ => exact .inl h

/-- The state after a call has been answered; the call has the guard its answer hands out. -/
def answered (p : Ideal) (i : CallRef) (o : Outcome) : Ideal :=
  { p with
    guard := update p.guard i o.guard?
    answer := update p.answer i (some o) }

/-- The state after an edit of content under a guard; an edit past the end changes nothing. -/
def edited (p : Ideal) (g : Guard) (which : Side) (e : Region.Edit) : Ideal :=
  match (p.content g.handle.storage).edit? which e with
  | some c => { p with content := update p.content g.handle.storage c }
  | none => p

/-- The state after the contents under two guards have been swapped. -/
def swapped (p : Ideal) (g f : Guard) : Ideal :=
  { p with content := p.content ∘ Equiv.swap g.handle.storage f.handle.storage }

/-- The state after a deed. -/
def after (p : Ideal) : Deed → Ideal
  | .call i supply b request =>
    (p.effect supply b request).2.answered i (p.effect supply b request).1
  | .act (.dropGuard i) => { p with guard := update p.guard i none }
  | .act (.edit i which e) =>
    match p.guard i with
    | some g => p.edited g which e
    | none => p
  | .act (.swap i j) =>
    match p.guard i, p.guard j with
    | some g, some f => p.swapped g f
    | _, _ => p
  | .act (.setNextId t id) => { p with nextId := update p.nextId t id }
  | .act _ => p

/-! ### When deeds can be performed -/

/-- Whether the guards on content leave room for one more use of it. -/
def Admits (p : Ideal) (b : StorageRef) (mode : Mode) : Prop :=
  ∀ i g, p.guard i = some g → g.handle.storage = b → mode = .shared ∧ g.mode = .shared

/-- Whether the guards on content leave room for a request: buffers only leave a table when nobody
uses them, and are only handed out to be shared or to be used alone. -/
def Permits (p : Ideal) : Request → Prop
  | .free t r id => (p.roster r).contains ⟨p.sessionOf r, id⟩ = true →
    ∀ b, (p.index t)[(⟨p.sessionOf r, id⟩ : Key)]? = some b → p.Admits b .exclusive
  | .teardown t r => ∀ key b, (p.roster r).contains key = true → (p.index t)[key]? = some b →
    p.Admits b .exclusive
  | .lookup t key mode => ∀ b, (p.index t)[key]? = some b → p.Admits b mode
  | _ => True

/-- Whether the tables and registries that a request names exist. -/
def Names (p : Ideal) : Request → Prop
  | .attach a => match a.purpose with
    | .alone _ => True
    | .table t | .session t => t < p.limits.size
  | .allocate t r _ _ | .free t r _ | .teardown t r => t < p.limits.size ∧ r < p.sessions.size
  | .lookup t _ _ | .inspect t _ | .draw t => t < p.limits.size
  | .roster r _ => r < p.sessions.size
  | .endSession _ | .access _ _ => False

/-- Whether a deed can be performed. -/
def Ready (p : Ideal) : Deed → Prop
  | .call i _ b request => p.answer i = none ∧ request.isAtomic = true ∧ p.Names request ∧
    p.Permits request ∧ b ∉ p.born
  | .act (.dropGuard i) => (p.guard i).isSome
  | .act (.edit i which e) => ∃ g, p.guard i = some g ∧ g.mode = .exclusive ∧
    ((p.content g.handle.storage).edit? which e).isSome
  | .act (.swap i j) => ∃ g f, p.guard i = some g ∧ p.guard j = some f ∧ i ≠ j ∧
    g.mode = .exclusive ∧ f.mode = .exclusive
  | .act (.setNextId t _) | .act (.resetCounters t) | .act (.count t _ _) => t < p.limits.size
  | .act (.invoke _) | .act (.step _) => False

end Ideal

end SessionBuffers
