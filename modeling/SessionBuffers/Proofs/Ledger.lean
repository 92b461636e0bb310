import SessionBuffers.Proofs.Agreement
import SessionBuffers.Proofs.Ideal

/-!
# A plain map of buffers

What a client that makes one call after the other has to know of a table: the number it hands out
next, and for every key in use who owns the buffer and which bytes are in it. A `Ledger` answers all
requests from these; it has no locks, no rosters and no released storage. The rest of it only
records which registries, sessions and handles the client has been given.
-/

namespace SessionBuffers

/-! ### Bytes -/

/-- The bytes of the two regions of a buffer. -/
structure Bytes where
  user : List UInt8
  kernel : List UInt8
  deriving DecidableEq

namespace Bytes

/-- Zeros in both regions. -/
def zeros (user kernel : UInt64) : Bytes :=
  ⟨.replicate user.toNat 0, .replicate kernel.toNat 0⟩

/-- The bytes of one region. -/
def side (b : Bytes) : Side → List UInt8
  | .user => b.user
  | .kernel => b.kernel

/-- The bytes with those of one region replaced. -/
def setSide (b : Bytes) (which : Side) (bytes : List UInt8) : Bytes :=
  match which with
  | .user => { b with user := bytes }
  | .kernel => { b with kernel := bytes }

end Bytes

/-- What an edit makes of some bytes; nothing when it passes their end. -/
def Region.Edit.bytes? (bytes : List UInt8) : Edit → Option (List UInt8)
  | .write offset patch =>
    if offset + patch.size ≤ bytes.length then
      some (bytes.take offset ++ patch.data.toList ++ bytes.drop (offset + patch.size))
    else none
  | .fill b => some (.replicate bytes.length b)

/-- The bytes after an edit of one region. -/
def Bytes.edit? (b : Bytes) (which : Side) (e : Region.Edit) : Option Bytes :=
  (e.bytes? (b.side which)).map (b.setSide which)

/-- The bytes that content is made of. -/
def Content.bytes (c : Content) : Bytes := ⟨c.user.toList, c.kernel.toList⟩

/-- A region is edited as its bytes are. -/
theorem Region.map_edit? (r : Region) (e : Edit) : (r.edit? e).map toList = e.bytes? r.toList := by
  cases e with
  | write offset patch =>
    simp only [edit?, Edit.bytes?, length_toList]
    cases hw : r.write? offset patch with
    | none =>
      have hpast : ¬ offset + patch.size ≤ r.size := by
        intro hle
        simp [write?, hle] at hw
      simp [hpast]
    | some q =>
      have hle : offset + patch.size ≤ r.size := by
        by_contra hpast
        simp [write?, hpast] at hw
      simp [hle, toList_write? hw]
  | fill b => simp [edit?, Edit.bytes?, fill]

namespace Content

theorem bytes_zeroed (user kernel : UInt64) : (zeroed user kernel).bytes = .zeros user kernel := by
  simp [bytes, zeroed, Bytes.zeros]

theorem side_bytes (c : Content) (which : Side) : c.bytes.side which = (c.side which).toList := by
  cases which <;> rfl

theorem bytes_setSide (c : Content) (which : Side) (r : Region) :
    (c.setSide which r).bytes = c.bytes.setSide which r.toList := by
  cases which <;> rfl

/-- Content is edited as its bytes are. -/
theorem map_edit? (c : Content) (which : Side) (e : Region.Edit) :
    (c.edit? which e).map bytes = c.bytes.edit? which e := by
  rw [Bytes.edit?, side_bytes, ← Region.map_edit?, edit?, Option.map_map, Option.map_map]
  congr 1
  funext r
  exact c.bytes_setSide which r

end Content

/-! ### What a client keeps track of -/

/-- A buffer in use. -/
structure Entry where
  /-- The registry it was allocated with. -/
  owner : RegistryRef
  /-- Which buffer it is, in the order in which buffers were set up; a key may be used again. -/
  serial : StorageRef
  bytes : Bytes
  deriving DecidableEq

/-- The buffers of a table as a plain map, with what else a client has been told. -/
structure Ledger where
  limits : Limits
  nextId : BufferId
  buffers : Std.ExtTreeMap Key Entry compare := ∅
  /-- The sessions of the registries. -/
  registries : Array SessionId := #[]
  sessions : Array Session := #[]
  /-- How many storages have been set up. -/
  made : StorageRef := 0
  /-- The handles that have been returned. -/
  handles : List Handle := []

namespace Ledger

/-- The ledger before any call. -/
def initial (limits : Limits) (id : BufferId) : Ledger := { limits, nextId := id }

/-- The owner of the buffer of a key. -/
def owner? (l : Ledger) (key : Key) : Option RegistryRef := l.buffers[key]?.map Entry.owner

/-- The keys of the buffers of one owner, in ascending order. -/
def owned (l : Ledger) (r : RegistryRef) : List Key :=
  l.buffers.keys.filter fun key ↦ l.owner? key = some r

/-! ### What requests do -/

/-- The room for keys that a registry is attached with. -/
def capacity? (l : Ledger) : Purpose → Option UInt64
  | .alone capacity => some capacity
  | .table 0 | .session 0 => some l.limits.sessionCapacity
  | _ => none

/-- One more registry, and a session around it if it is for one. -/
def attach (supply : Supply) (l : Ledger) (a : Attachment) (capacity : UInt64) :
    Outcome × Ledger :=
  let attached := { l with registries := l.registries.push a.session }
  if supply.roster capacity then
    match a.purpose with
    | .session t => (.session l.sessions.size, { attached with
        sessions := l.sessions.push { table := t, registry := l.registries.size } })
    | _ => (.registry l.registries.size, attached)
  else (.refused (Supply.rosterFailure capacity), l)

/-- A number is drawn, and a buffer of zeros is entered under it unless the key is in use. Without
room for the key none is drawn, but then the storage has been set up already. -/
def allocate (supply : Supply) (l : Ledger) (r : RegistryRef) (session : SessionId)
    (user kernel : UInt64) : Outcome × Ledger :=
  let key : Key := ⟨session, l.nextId⟩
  let drawn := { l with nextId := ⟨l.nextId.number + 1⟩, made := l.made + 1 }
  if l.limits.permits user kernel && supply.regions user kernel then
    if supply.slot user kernel then
      if l.buffers.contains key then (.refused (.duplicateKey key), drawn)
      else (.handle ⟨key, l.made⟩,
        { drawn with buffers := l.buffers.insert key ⟨r, l.made, .zeros user kernel⟩ })
    else (.refused (.allocationFailed user kernel), { l with made := l.made + 1 })
  else (.refused (.allocationFailed user kernel), l)

/-- Only the owner of a buffer can take it out. -/
def free (l : Ledger) (r : RegistryRef) (key : Key) : Outcome × Ledger :=
  if l.owner? key = some r then (.done, { l with buffers := l.buffers.erase key })
  else (.refused (.notFound key), l)

/-- Everything of one owner is taken out. -/
def teardown (l : Ledger) (r : RegistryRef) : Outcome × Ledger :=
  (.number (l.owned r).length, { l with buffers := l.buffers.filter fun _ e ↦ e.owner ≠ r })

/-- A session that has not ended is torn down. -/
def endSession (l : Ledger) (c : SessionRef) (session : Session) : Outcome × Ledger :=
  if session.ended then (.number 0, l)
  else teardown { l with
    sessions := l.sessions.modify c fun session ↦ { session with ended := true } } session.registry

/-- A buffer is found under its key. -/
def lookup (l : Ledger) (key : Key) (mode : Mode) : Outcome :=
  match l.buffers[key]? with
  | some e => .guard ⟨⟨key, e.serial⟩, mode⟩
  | none => .refused (.notFound key)

/-- A handle is good as long as its key leads to the buffer it was returned for. -/
def access (l : Ledger) (h : Handle) (mode : Mode) : Outcome :=
  if l.buffers[h.key]?.map Entry.serial = some h.storage then .guard ⟨h, mode⟩
  else .refused (.notFound h.key)

/-- What the table is asked is read off the map. -/
def inspect (l : Ledger) : Question → Outcome
  | .contains key => .flag (l.buffers.contains key)
  | .size => .number l.buffers.size
  | .keysOf s => .keys (l.buffers.keys.filter fun key ↦ key.session = s)

/-- What a registry is asked is read off the map as well; the map is not changed through a
registry. -/
def read? (l : Ledger) (r : RegistryRef) : RosterAction → Option Outcome
  | .contains key | .tryContains key => some (.flag (l.owner? key = some r))
  | .keys => some (.keys (l.owned r))
  | .size => some (.number (l.owned r).length)
  | .add _ | .remove _ | .drain => none

/-- What a request is answered, and what becomes of the ledger; nothing when the request names what
the client has not been given, or changes a registry by hand. -/
def ask? (supply : Supply) (l : Ledger) : Request → Option (Outcome × Ledger)
  | .attach a => (l.capacity? a.purpose).map (l.attach supply a)
  | .allocate 0 r user kernel =>
    l.registries[r]?.map fun session ↦ l.allocate supply r session user kernel
  | .free 0 r id => l.registries[r]?.map fun session ↦ l.free r ⟨session, id⟩
  | .teardown 0 r => l.registries[r]?.map fun _ ↦ l.teardown r
  | .endSession c => l.sessions[c]?.map fun session ↦ l.endSession c session
  | .lookup 0 key mode => some (l.lookup key mode, l)
  | .access h mode => if h ∈ l.handles then some (l.access h mode, l) else none
  | .inspect 0 question => some (l.inspect question, l)
  | .roster r action => if r < l.registries.size then (l.read? r action).map (·, l) else none
  | .draw 0 => some (.id l.nextId, { l with nextId := ⟨l.nextId.number + 1⟩ })
  | _ => none

end Ledger

/-! ### A client at work -/

/-- A request, and what is done under the guard it may be answered with before the guard is
dropped. -/
structure Errand where
  request : Request
  edits : List (Side × Region.Edit) := []

/-- Whether a request leaves it to the table to change rosters. -/
def Request.keepsRosters : Request → Bool
  | .roster _ action => !action.changes
  | _ => true

/-- What an errand brings: the answer, and the bytes seen under the guard at first and after each
edit. -/
structure Receipt where
  outcome : Outcome
  seen : List Bytes := []
  deriving DecidableEq

namespace Ledger

/-- The ledger after the client has been told an outcome: only handles are remembered. -/
def told (l : Ledger) : Outcome → Ledger
  | .handle h => { l with handles := h :: l.handles }
  | _ => l

/-- The bytes of the buffer of a key. -/
def bytes? (l : Ledger) (key : Key) : Option Bytes := l.buffers[key]?.map Entry.bytes

/-- The ledger after an edit under a guard; nothing when the edit passes the end of its region, or
is made without the right to. -/
def edit? (l : Ledger) (g : Guard) (which : Side) (e : Region.Edit) : Option Ledger := do
  let entry ← l.buffers[g.handle.key]?
  let bytes ← entry.bytes.edit? which e
  guard (g.mode = .exclusive)
  return { l with buffers := l.buffers.insert g.handle.key { entry with bytes } }

/-- What is seen under a guard at first and after each edit. -/
def use? (l : Ledger) (g : Guard) : List (Side × Region.Edit) → Option (List Bytes × Ledger)
  | [] => (l.bytes? g.handle.key).map fun bytes ↦ ([bytes], l)
  | (which, e) :: edits => do
    let bytes ← l.bytes? g.handle.key
    let l ← l.edit? g which e
    let (seen, l) ← l.use? g edits
    return (bytes :: seen, l)

/-- One errand. -/
def run? (supply : Supply) (l : Ledger) (e : Errand) : Option (Receipt × Ledger) := do
  let (outcome, l) ← l.ask? supply e.request
  let l := l.told outcome
  match outcome.guard? with
  | none => return ({ outcome }, l)
  | some g =>
    let (seen, l) ← l.use? g e.edits
    return ({ outcome, seen }, l)

/-- One errand after the other. -/
def runAll? (supply : Supply) (l : Ledger) : List Errand → Option (List Receipt)
  | [] => some []
  | e :: es => do
    let (receipt, l) ← l.run? supply e
    return receipt :: (← l.runAll? supply es)

end Ledger

end SessionBuffers
