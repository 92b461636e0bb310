import Mathlib.Logic.Function.Basic
import SessionBuffers.Proofs.Refinement

/-!
# Clients that name buffers

A client does not choose the ids of its buffers: it knows a buffer as one of those it has allocated
for a session. What such a client wants done is a `Wish`. It can be asked for once the client has
been given what it takes, which it keeps in its `Notebook`; so the same wishes become other requests
when other ids have been handed out.
-/

namespace SessionBuffers

/-- A buffer as a client knows it: the session it was allocated for, and how many buffers of that
session were allocated before it. -/
structure Name where
  session : SessionId
  nth : Nat
  deriving DecidableEq

/-- What a client wants done with a table, over one registry for each session. -/
inductive Wish where
  | attach (a : Attachment)
  | allocate (s : SessionId) (user kernel : UInt64)
  /-- Free the id of a buffer, through the registry of a session. -/
  | free (s : SessionId) (b : Name)
  | teardown (s : SessionId)
  | endSession (s : SessionId)
  | lookup (b : Name) (mode : Mode) (edits : List (Side × Region.Edit))
  | access (b : Name) (mode : Mode) (edits : List (Side × Region.Edit))
  | contains (b : Name)
  | keysOf (s : SessionId)
  | size
  /-- Ask the registry of a session whether it lists a buffer, and wait for the answer or not. -/
  | lists (wait : Bool) (s : SessionId) (b : Name)
  | listed (s : SessionId)
  | count (s : SessionId)
  | draw
  deriving DecidableEq

namespace Wish

/-- The sessions whose registry, id or buffers it takes. -/
def sessions : Wish → List SessionId
  | attach a => [a.session]
  | allocate s _ _ | teardown s | endSession s | keysOf s | listed s | count s => [s]
  | free s b | lists _ s b => [s, b.session]
  | lookup b _ _ | access b _ _ | contains b => [b.session]
  | size | draw => []

/-- Whether it takes nothing of any other session. -/
def spares (s : SessionId) (w : Wish) : Bool := w.sessions.all (· == s)

/-- Whether it takes something of a session, and of no other. -/
def isOf (s : SessionId) (w : Wish) : Bool := w.sessions.contains s && w.spares s

/-- What is done under the guard. -/
def edits : Wish → List (Side × Region.Edit)
  | lookup _ _ edits | access _ _ edits => edits
  | _ => []

end Wish

/-! ### What a client has been given -/

/-- What a client works through: a registry, or a session with its own. -/
inductive Holding where
  | registry (r : RegistryRef)
  | session (c : SessionRef)
  deriving DecidableEq

/-- The registry that is worked with. -/
def Holding.registry? (sessions : Array Session) : Holding → Option RegistryRef
  | registry r => some r
  | session c => sessions[c]?.map Session.registry

/-- What a client has been given. -/
structure Notebook where
  holding : SessionId → Option Holding := fun _ ↦ none
  /-- The handles of a session's buffers in the order in which they were allocated. -/
  handles : SessionId → List Handle := fun _ ↦ []

namespace Notebook

/-- The notebook after a session has been attached. -/
def attached (n : Notebook) (s : SessionId) (x : Holding) : Notebook :=
  { n with holding := Function.update n.holding s (some x) }

/-- The notebook after a handle has been returned for a session. -/
def given (n : Notebook) (s : SessionId) (h : Handle) : Notebook :=
  { n with handles := Function.update n.handles s (n.handles s ++ [h]) }

section Noted

variable (n : Notebook) (s t : SessionId) (x : Holding) (g h : Handle)

@[simp] theorem holding_attached :
    (n.attached s x).holding t = if t = s then some x else n.holding t := Function.update_apply ..

@[simp] theorem handles_attached : (n.attached s x).handles = n.handles := rfl

@[simp] theorem holding_given : (n.given s h).holding = n.holding := rfl

@[simp] theorem handles_given :
    (n.given s h).handles t = if t = s then n.handles s ++ [h] else n.handles t :=
  Function.update_apply ..

theorem mem_handles_given : g ∈ (n.given s h).handles t ↔ g ∈ n.handles t ∨ t = s ∧ g = h := by
  rw [handles_given]
  split
  · next ht => simp [ht]
  · next ht => simp [ht]

end Noted

/-- Whether the positions of a session's buffers are numbered with their ids. -/
def Numbers (n : Notebook) (s : SessionId) (ids : Nat → BufferId) : Prop :=
  ∀ (k : Nat) (h : Handle), (n.handles s)[k]? = some h → ids k = h.key.buffer

/-- The ids of a session's buffers by their positions. -/
def ids (n : Notebook) (s : SessionId) (k : Nat) : BufferId :=
  ((n.handles s)[k]?.map fun h ↦ h.key.buffer).getD default

theorem numbers_ids (n : Notebook) (s : SessionId) : n.Numbers s (n.ids s) := fun k h hk ↦ by
  rw [ids, hk]
  rfl

/-- The registry of a session. -/
def registry? (n : Notebook) (sessions : Array Session) (s : SessionId) : Option RegistryRef :=
  (n.holding s).bind (Holding.registry? sessions)

/-- The handle of a buffer. -/
def handle? (n : Notebook) (b : Name) : Option Handle := (n.handles b.session)[b.nth]?

/-- What a client asks for, once it has been given what it takes. A session is attached once. -/
def request? (n : Notebook) (sessions : Array Session) : Wish → Option Request
  | .attach a => if (n.holding a.session).isSome then none else some (.attach a)
  | .allocate s user kernel => (n.registry? sessions s).map (.allocate 0 · user kernel)
  | .free s b => do return .free 0 (← n.registry? sessions s) (← n.handle? b).key.buffer
  | .teardown s => (n.registry? sessions s).map (.teardown 0)
  | .endSession s => do
    match ← n.holding s with
    | .registry _ => none
    | .session c => some (.endSession c)
  | .lookup b mode _ => (n.handle? b).map fun h ↦ .lookup 0 h.key mode
  | .access b mode _ => (n.handle? b).map (.access · mode)
  | .contains b => (n.handle? b).map fun h ↦ .inspect 0 (.contains h.key)
  | .keysOf s => some (.inspect 0 (.keysOf s))
  | .size => some (.inspect 0 .size)
  | .lists wait s b => do
    let r ← n.registry? sessions s
    let h ← n.handle? b
    return .roster r (if wait then .contains h.key else .tryContains h.key)
  | .listed s => (n.registry? sessions s).map (.roster · .keys)
  | .count s => (n.registry? sessions s).map (.roster · .size)
  | .draw => some (.draw 0)

/-- The errand that a wish comes to. -/
def errand? (n : Notebook) (sessions : Array Session) (w : Wish) : Option Errand :=
  (n.request? sessions w).map (⟨·, w.edits⟩)

/-- What is noted of an answer: the registry or the session, or a handle. -/
def note (n : Notebook) : Wish → Outcome → Notebook
  | .attach a, .registry r => n.attached a.session (.registry r)
  | .attach a, .session c => n.attached a.session (.session c)
  | .allocate s _ _, .handle h => n.given s h
  | _, _ => n

/-- Clients leave the rosters to the table. -/
theorem keepsRosters_of_errand? {n : Notebook} {sessions : Array Session} {w : Wish} {e : Errand}
    (he : n.errand? sessions w = some e) : e.request.keepsRosters = true := by
  obtain ⟨request, hr, rfl⟩ := Option.map_eq_some_iff.mp he
  cases w with
  | attach a =>
    simp only [request?] at hr
    split at hr <;> cases hr
    rfl
  | free s b =>
    obtain ⟨r, -, hr⟩ := Option.bind_eq_some_iff.mp hr
    obtain ⟨h, -, hr⟩ := Option.bind_eq_some_iff.mp hr
    cases hr
    rfl
  | endSession s =>
    obtain ⟨held, -, hr⟩ := Option.bind_eq_some_iff.mp hr
    cases held <;> cases hr
    rfl
  | lists wait s b =>
    obtain ⟨r, -, hr⟩ := Option.bind_eq_some_iff.mp hr
    obtain ⟨h, -, hr⟩ := Option.bind_eq_some_iff.mp hr
    cases hr
    cases wait <;> rfl
  | keysOf s | size | draw =>
    cases hr
    rfl
  | _ =>
    obtain ⟨_, -, rfl⟩ := Option.map_eq_some_iff.mp hr
    rfl

end Notebook

/-! ### Doing what a client wants -/

/-- Whether an action changes counters by hand. -/
def Action.setsCounters : Action → Bool
  | .resetCounters _ | .count _ _ _ => true
  | _ => false

/-- One wish after the other is fulfilled. In between, counters may be changed by hand. -/
inductive Service.Fulfils (supply : Supply) :
    Service → Notebook → List Wish → List Receipt → Prop
  | nil {s : Service} {n : Notebook} : Fulfils supply s n [] []
  | cons {s s' : Service} {n : Notebook} {w : Wish} {ws : List Wish} {e : Errand}
    {receipt : Receipt} {receipts : List Receipt} (he : n.errand? s.store.sessions w = some e)
    (h : s.Runs supply e receipt s')
    (hs : Fulfils supply s' (n.note w receipt.outcome) ws receipts) :
    Fulfils supply s n (w :: ws) (receipt :: receipts)
  | tend {s s' : Service} {n : Notebook} {ws : List Wish} {receipts : List Receipt}
    {action : Action}
    (hk : action.setsCounters = true) (hact : s.act? supply action = some s')
    (hs : Fulfils supply s' n ws receipts) : Fulfils supply s n ws receipts

namespace Ledger

/-- One wish is fulfilled. -/
def fulfil? (supply : Supply) (l : Ledger) (n : Notebook) (w : Wish) :
    Option (Receipt × Ledger × Notebook) := do
  let e ← n.errand? l.sessions w
  let (receipt, l) ← l.run? supply e
  return (receipt, l, n.note w receipt.outcome)

/-- One wish after the other is fulfilled. -/
def fulfilAll? (supply : Supply) (l : Ledger) (n : Notebook) : List Wish → Option (List Receipt)
  | [] => some []
  | w :: ws => do
    let (receipt, l, n) ← l.fulfil? supply n w
    return receipt :: (← l.fulfilAll? supply n ws)

variable {supply : Supply} {l l' : Ledger} {n n' : Notebook} {w : Wish} {ws : List Wish}
  {receipt : Receipt} {receipts : List Receipt} {s : Service}

theorem fulfil?_eq_some : l.fulfil? supply n w = some (receipt, l', n') ↔
    ∃ e, n.errand? l.sessions w = some e ∧ l.run? supply e = some (receipt, l') ∧
      n' = n.note w receipt.outcome := by
  simp only [fulfil?, Option.bind_eq_bind, Option.bind_eq_some_iff, Option.pure_def,
    Option.some.injEq, Prod.mk.injEq]
  constructor
  · rintro ⟨e, he, ⟨_, _⟩, hr, rfl, rfl, rfl⟩
    exact ⟨e, he, hr, rfl⟩
  · rintro ⟨e, he, hr, rfl⟩
    exact ⟨e, he, _, hr, rfl, rfl, rfl⟩

theorem fulfilAll?_cons : l.fulfilAll? supply n (w :: ws) = some receipts ↔
    ∃ receipt l' n' rest, l.fulfil? supply n w = some (receipt, l', n') ∧
      l'.fulfilAll? supply n' ws = some rest ∧ receipts = receipt :: rest := by
  simp only [fulfilAll?, Option.bind_eq_bind, Option.bind_eq_some_iff, Option.pure_def,
    Option.some.injEq, Prod.exists]
  constructor
  · rintro ⟨receipt, l', n', hf, rest, hrest, rfl⟩
    exact ⟨receipt, l', n', rest, hf, hrest, rfl⟩
  · rintro ⟨receipt, l', n', rest, hf, hrest, rfl⟩
    exact ⟨receipt, l', n', hf, rest, hrest, rfl⟩

/-- A ledger does not say how counters are. -/
theorem Describes.of_setsCounters (h : l.Describes s) {action : Action} {s' : Service}
    (hk : action.setsCounters = true) (hact : s.act? supply action = some s') :
    l.Describes s' ∧ s'.calls = s.calls := by
  obtain ⟨limits, hr⟩ := h.reachable
  cases action with
  | resetCounters t | count t which amount =>
    have hr' := hr.act rfl hact
    obtain ⟨_, -, hact⟩ := Option.bind_eq_some_iff.mp hact
    cases hact
    exact ⟨h.modifyTable t ⟨limits, hr'⟩ (fun _ ↦ rfl) (fun _ ↦ rfl) fun _ ↦ rfl, rfl⟩
  | _ => cases hk

/-- A service fulfils wishes as the ledger does that describes it. -/
theorem Describes.fulfils_iff (h : l.Describes s) (hfree : ∀ i, s.guard? i = none) :
    Service.Fulfils supply s n ws receipts ↔ l.fulfilAll? supply n ws = some receipts := by
  constructor
  · intro hs
    induction hs generalizing l with
    | nil => rfl
    | cons he hruns hs ih =>
      obtain ⟨l', hrun⟩ := h.run?_of_runs hfree (Notebook.keepsRosters_of_errand? he) hruns
      obtain ⟨u, hruns', hu, hfree'⟩ := h.runs hfree hrun
      obtain ⟨-, rfl⟩ := hruns.unique hruns'
      exact fulfilAll?_cons.mpr ⟨_, l', _, _,
        fulfil?_eq_some.mpr ⟨_, h.sessions ▸ he, hrun, rfl⟩, ih hu hfree', rfl⟩
    | tend hk hact hs ih =>
      obtain ⟨hafter, hcalls⟩ := h.of_setsCounters hk hact
      exact ih hafter fun i ↦ (congrArg (fun calls : Array Call ↦ calls[i]?.bind Call.guard?)
        hcalls).trans (hfree i)
  · intro hall
    induction ws generalizing l s n receipts with
    | nil =>
      cases hall
      exact .nil
    | cons w ws ih =>
      obtain ⟨receipt, l', n', rest, hf, hrest, rfl⟩ := fulfilAll?_cons.mp hall
      obtain ⟨e, he, hrun, rfl⟩ := fulfil?_eq_some.mp hf
      obtain ⟨s', hruns, hs', hfree'⟩ := h.runs hfree hrun
      exact .cons (h.sessions.symm ▸ he) hruns (ih hs' hfree' hrest)

end Ledger

end SessionBuffers
