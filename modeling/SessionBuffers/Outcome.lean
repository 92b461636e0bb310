import SessionBuffers.Instr

/-!
# Outcomes

What a call ends with, and the state every operation shares: it has ended, or it has a step to do.
-/

namespace SessionBuffers

/-- The right to use the content of a buffer, until it is given back: alone for writing, together
with others for reading. Follows `SlabReadGuard` and `SlabWriteGuard`
(`buffer/slab_guard:43–46,88–91`). -/
structure Guard where
  handle : Handle
  mode : Mode
  deriving DecidableEq

/-- What a call ends with. -/
inductive Outcome where
  /-- Done, with nothing to tell. -/
  | done
  | flag (b : Bool)
  | number (n : Nat)
  | id (b : BufferId)
  | keys (ks : List Key)
  | handle (h : Handle)
  | guard (g : Guard)
  | registry (r : RegistryRef)
  | session (c : SessionRef)
  /-- The operation was refused. -/
  | refused (why : Failure)
  /-- Not told, because the answer would have had to wait. -/
  | busy
  /-- The caller asked for what no caller may ask for. -/
  | misuse
  deriving DecidableEq

/-- Where an operation stands. -/
inductive Progress (σ : Type) where
  /-- It has ended. -/
  | ended (outcome : Outcome)
  /-- It has this step to do. -/
  | next (step : Instr σ)

/-- The same state with every position renamed. -/
def Progress.map {σ τ : Type} (f : σ → τ) : Progress σ → Progress τ
  | ended outcome => .ended outcome
  | next step => .next (step.map f)

end SessionBuffers
