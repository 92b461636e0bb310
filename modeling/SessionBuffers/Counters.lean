import SessionBuffers.Decimal
import SessionBuffers.Record

/-!
# Counters of a table

What a table counts of its operations. Every counter is a word and wraps; what is derived from
the counters (`live`, `hitRate`) is computed from their current values only.
-/

namespace SessionBuffers

/-- What a table counts. The fields of `TableStats` (`buffer/stats:22–47`). -/
inductive Counter where
  /-- Buffers inserted. -/
  | allocations
  /-- Allocations that were refused. -/
  | allocationFailures
  /-- Buffers freed one by one. -/
  | frees
  /-- Frees of a buffer the session does not own. -/
  | freeMisses
  /-- Lookups that found their buffer. -/
  | lookups
  /-- Lookups of a key that is not in the table. -/
  | lookupMisses
  | sessionsOpened
  | sessionsClosed
  /-- Buffers released when their session was torn down. -/
  | buffersReclaimed
  deriving DecidableEq

namespace Counter

/-- Every counter, in the order in which they are listed. -/
def all : List Counter :=
  [.allocations, .allocationFailures, .frees, .freeMisses, .lookups, .lookupMisses,
    .sessionsOpened, .sessionsClosed, .buffersReclaimed]

/-- The name a counter is listed under. -/
def name : Counter → String
  | .allocations => "allocations"
  | .allocationFailures => "allocation_failures"
  | .frees => "frees"
  | .freeMisses => "free_misses"
  | .lookups => "lookups"
  | .lookupMisses => "lookup_misses"
  | .sessionsOpened => "sessions_opened"
  | .sessionsClosed => "sessions_closed"
  | .buffersReclaimed => "buffers_reclaimed"

/-- The counter of a name, if there is one. -/
def ofName? (name : String) : Option Counter := all.find? fun c ↦ c.name == name

end Counter

/-- The values of all counters. Follows `StatsSnapshot` (`buffer/stats:100–110`). -/
structure Counters where
  allocations : UInt64 := 0
  allocationFailures : UInt64 := 0
  frees : UInt64 := 0
  freeMisses : UInt64 := 0
  lookups : UInt64 := 0
  lookupMisses : UInt64 := 0
  sessionsOpened : UInt64 := 0
  sessionsClosed : UInt64 := 0
  buffersReclaimed : UInt64 := 0
  deriving DecidableEq, Inhabited

namespace Counters

/-- The value of one counter. -/
def get (c : Counters) : Counter → UInt64
  | .allocations => c.allocations
  | .allocationFailures => c.allocationFailures
  | .frees => c.frees
  | .freeMisses => c.freeMisses
  | .lookups => c.lookups
  | .lookupMisses => c.lookupMisses
  | .sessionsOpened => c.sessionsOpened
  | .sessionsClosed => c.sessionsClosed
  | .buffersReclaimed => c.buffersReclaimed

/-- The counters with one value replaced. -/
def set (c : Counters) (which : Counter) (value : UInt64) : Counters :=
  match which with
  | .allocations => { c with allocations := value }
  | .allocationFailures => { c with allocationFailures := value }
  | .frees => { c with frees := value }
  | .freeMisses => { c with freeMisses := value }
  | .lookups => { c with lookups := value }
  | .lookupMisses => { c with lookupMisses := value }
  | .sessionsOpened => { c with sessionsOpened := value }
  | .sessionsClosed => { c with sessionsClosed := value }
  | .buffersReclaimed => { c with buffersReclaimed := value }

/-- The counters with one of them advanced; past the largest word it starts again at zero. Follows
`TableStats.bump` (`buffer/stats:93–95`). -/
def add (c : Counters) (which : Counter) (amount : UInt64) : Counters :=
  c.set which (c.get which + amount)

/-- A replaced counter has its new value, and every other one the value it had. -/
theorem get_set (c : Counters) (which other : Counter) (value : UInt64) :
    (c.set which value).get other = if which = other then value else c.get other := by
  cases which <;> cases other <;> rfl

/-- An advanced counter has moved by the amount, and no other one has moved. -/
theorem get_add (c : Counters) (which other : Counter) (amount : UInt64) :
    (c.add which amount).get other =
      if which = other then c.get other + amount else c.get other := by
  rw [add, get_set]
  split
  · next h => rw [h]
  · rfl

/-- Counters with the same nine values are equal. -/
theorem ext_get {c d : Counters} (h : ∀ which, c.get which = d.get which) : c = d := by
  cases c
  cases d
  simp only [mk.injEq]
  exact ⟨h .allocations, h .allocationFailures, h .frees, h .freeMisses, h .lookups,
    h .lookupMisses, h .sessionsOpened, h .sessionsClosed, h .buffersReclaimed⟩

/-- The values of all counters, in their order. -/
def values (c : Counters) : List UInt64 := Counter.all.map c.get

/-- Buffers allocated and neither freed nor reclaimed; never below zero. Follows
`StatsSnapshot.live_buffers` (`buffer/stats:114–118`). -/
def live (c : Counters) : Nat :=
  c.allocations.toNat - c.frees.toNat - c.buffersReclaimed.toNat

/-- The share of lookups that found their buffer, zero before the first lookup; there is none when
the number of lookups is no word. Follows `StatsSnapshot.hit_rate` (`buffer/stats:121–128`). -/
def hitRate? (c : Counters) : Option Float :=
  let total := c.lookups.toNat + c.lookupMisses.toNat
  if total = 0 then some 0
  else if total < UInt64.size then some (c.lookups.toFloat / (UInt64.ofNat total).toFloat)
  else none

/-- The counters in one line; there is none where there is no share of lookups. Follows the written
form of `StatsSnapshot` (`buffer/stats:131–143`). -/
def display? (c : Counters) : Option String :=
  c.hitRate?.map fun rate ↦
    recordText "Stats" [("live", toString c.live), ("allocs", wordText c.allocations),
      ("frees", wordText c.frees), ("reclaimed", wordText c.buffersReclaimed),
      ("hit_rate", (Dyadic.ofBits (rate * 100).toBits).centsText ++ "%")]

/-- The counters written field by field. -/
def inspect (c : Counters) : String :=
  recordText "StatsSnapshot" (Counter.all.map fun which ↦ (which.name, wordText (c.get which)))

end Counters

end SessionBuffers
