import Std.Data.ExtTreeSet.Lemmas
import SessionBuffers.Key

/-!
# Rosters

A roster is the set of keys a session has allocated, together with whether the session has been
torn down. It is listed in ascending order, whatever the order in which keys came and went.
-/

namespace SessionBuffers

/-- A set of keys. -/
abbrev KeySet := Std.ExtTreeSet Key compare

/-- The set of the keys of a list. -/
def KeySet.ofList (keys : List Key) : KeySet := keys.foldl (·.insert ·) ∅

/-- The keys a session owns. Follows `SessionList` (`buffer/session_registry:15–18`). -/
structure Roster where
  keys : KeySet := ∅
  closed : Bool := false

namespace Roster

instance : Inhabited Roster := ⟨{}⟩

/-- The roster with a key recorded. Follows `SessionList.add` (`buffer/session_registry:31–33`). -/
def add (r : Roster) (k : Key) : Roster := { r with keys := r.keys.insert k }

/-- The roster with a key forgotten. Follows `SessionList.remove` (`buffer/session_registry:35–37`).
-/
def remove (r : Roster) (k : Key) : Roster := { r with keys := r.keys.erase k }

/-- The roster with every key forgotten. Follows `SessionList.drain`
(`buffer/session_registry:43–47`). -/
def drained (r : Roster) : Roster := { r with keys := ∅ }

/-- The roster of a session that has been torn down. Follows `SessionList.mark_closed`
(`buffer/session_registry:22–24`). -/
def close (r : Roster) : Roster := { r with closed := true }

/-- Whether a key is recorded. Follows `SessionList.contains` (`buffer/session_registry:39–41`). -/
def contains (r : Roster) (k : Key) : Bool := r.keys.contains k

/-- The recorded keys in ascending order. Follows the sorted lists of `SessionList.drain`
(`buffer/session_registry:44–46`) and `SessionRegistry.keys` (`buffer/session_registry:117–121`). -/
def toList (r : Roster) : List Key := r.keys.toList

/-- The number of recorded keys. Follows `SessionList.len` (`buffer/session_registry:49–51`). -/
def size (r : Roster) : Nat := r.keys.size

end Roster

end SessionBuffers
