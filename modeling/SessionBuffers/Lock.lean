/-!
# Locks

A lock is held by any number of calls together or by one call alone. `Lock.acquire?` gives the
lock to a call exactly when those who hold it leave room for that mode; who among several waiting
calls comes first is not decided here.
-/

namespace SessionBuffers

/-- A call, by its position in the order in which calls were made. -/
abbrev CallRef := Nat

/-- How a lock is taken. -/
inductive Mode where
  /-- Together with others that take it so. -/
  | shared
  /-- Alone. -/
  | exclusive
  deriving DecidableEq

/-- Who holds a lock. What `Mutex` and `RwLock` guarantee of their holders; a `Mutex` is only taken
alone. -/
inductive Lock where
  /-- Held together by these calls, latest first; by none when it is free. -/
  | shared (holders : List CallRef)
  /-- Held by one call alone. -/
  | exclusive (holder : CallRef)
  deriving DecidableEq

namespace Lock

/-- The lock that nobody holds. -/
def free : Lock := .shared []

instance : Inhabited Lock := ⟨free⟩

/-- Whether a call holds the lock in the given mode. -/
def Holds (l : Lock) (who : CallRef) (mode : Mode) : Prop :=
  match l, mode with
  | .shared holders, .shared => who ∈ holders
  | .exclusive holder, .exclusive => who = holder
  | _, _ => False

/-- Whether anyone holds the lock. -/
def isHeld : Lock → Bool
  | .shared holders => !holders.isEmpty
  | .exclusive _ => true

/-- Whether one call holds the lock alone. -/
def isExclusive : Lock → Bool
  | .shared _ => false
  | .exclusive _ => true

/-- Whether the holders leave room for one more in the given mode. -/
def admits : Lock → Mode → Bool
  | .shared _, .shared => true
  | .shared holders, .exclusive => holders.isEmpty
  | .exclusive _, _ => false

/-- The lock taken by one more call, if its holders leave room. -/
def acquire? (l : Lock) (who : CallRef) (mode : Mode) : Option Lock :=
  match l, mode with
  | .shared holders, .shared => some (.shared (who :: holders))
  | .shared [], .exclusive => some (.exclusive who)
  | _, _ => none

/-- The lock given back by one call; nothing changes when the call does not hold it. -/
def release (l : Lock) (who : CallRef) : Lock :=
  match l with
  | .shared holders => .shared (holders.erase who)
  | .exclusive holder => if holder = who then free else l

/-- A lock is given exactly when it admits the mode. -/
theorem isSome_acquire? (l : Lock) (who : CallRef) (mode : Mode) :
    (l.acquire? who mode).isSome = l.admits mode := by
  cases l with
  | shared holders => cases mode <;> cases holders <;> rfl
  | exclusive holder => cases mode <;> rfl

/-- Giving back what was just taken restores the lock. -/
theorem release_of_acquire? {l m : Lock} {who : CallRef} {mode : Mode}
    (h : l.acquire? who mode = some m) : m.release who = l := by
  cases l with
  | shared holders =>
    cases mode with
    | shared =>
      cases h
      simp [release]
    | exclusive =>
      cases holders with
      | nil =>
        cases h
        simp [release, free]
      | cons _ _ => cases h
  | exclusive holder => cases mode <;> cases h

end Lock

end SessionBuffers
