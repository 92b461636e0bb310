import SessionBuffers.Key

/-!
# Why an operation is refused

The three causes for which the table refuses an operation, and their wording.
-/

namespace SessionBuffers

/-- A cause of refusal, with what the caller asked for. Follows `Error` (`common/error:15–30`). -/
inductive Failure where
  /-- The sizes pass a limit, or storage for them cannot be had. -/
  | allocationFailed (user kernel : UInt64)
  /-- The number drawn for a new buffer is still in use by its session. -/
  | duplicateKey (key : Key)
  /-- No live buffer is known by the key. -/
  | notFound (key : Key)
  deriving DecidableEq

namespace Failure

/-- The sentence a client is told. Follows the texts of `Error` (`common/error:18,24,28`). -/
def message : Failure → String
  | .allocationFailed user kernel =>
    "allocation failed (user: " ++ wordText user ++ " bytes, kernel: " ++ wordText kernel ++
      " bytes)"
  | .duplicateKey key => key.display ++ " already present in buffer table"
  | .notFound key => key.display ++ " not found"

/-- The cause written with its parts. -/
def inspect : Failure → String
  | .allocationFailed user kernel =>
    recordText "AllocationFailed" [("user_size", wordText user), ("kernel_size", wordText kernel)]
  | .duplicateKey key => "DuplicateKey(" ++ key.inspect ++ ")"
  | .notFound key => "NotFound(" ++ key.inspect ++ ")"

end Failure

end SessionBuffers
