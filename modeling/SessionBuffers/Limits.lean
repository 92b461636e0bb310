import SessionBuffers.Record

/-!
# Limits of a table

How large the two regions of a buffer may be, and for how many keys a session's roster is
prepared when it is attached.
-/

namespace SessionBuffers

/-- The limits one table works under. Follows `TableConfig` and its defaults
(`common/config:4–36,55–63`). -/
structure Limits where
  maxKernel : UInt64 := 16777216
  maxUser : UInt64 := 67108864
  sessionCapacity : UInt64 := 16
  deriving DecidableEq, Inhabited

/-- The limits that can be set by name. -/
inductive Setting where
  | maxKernel
  | maxUser
  | sessionCapacity
  deriving DecidableEq

namespace Setting

/-- Every setting, in the order in which limits are listed. -/
def all : List Setting := [.maxKernel, .maxUser, .sessionCapacity]

/-- The name a setting is given under. -/
def name : Setting → String
  | .maxKernel => "max_kernel_size"
  | .maxUser => "max_user_size"
  | .sessionCapacity => "session_capacity"

/-- The setting of a name, if there is one. -/
def ofName? (name : String) : Option Setting := all.find? fun s ↦ s.name == name

end Setting

namespace Limits

/-- The value of a setting. -/
def get (l : Limits) : Setting → UInt64
  | .maxKernel => l.maxKernel
  | .maxUser => l.maxUser
  | .sessionCapacity => l.sessionCapacity

/-- Limits with one setting replaced. Follows `with_max_kernel_size`, `with_max_user_size` and
`with_session_capacity` (`common/config:39–52`). -/
def set (l : Limits) (s : Setting) (value : UInt64) : Limits :=
  match s with
  | .maxKernel => { l with maxKernel := value }
  | .maxUser => { l with maxUser := value }
  | .sessionCapacity => { l with sessionCapacity := value }

/-- The default limits with replacements made in order, so that the last one of a name counts. -/
def ofSettings (settings : List (Setting × UInt64)) : Limits :=
  settings.foldl (fun l s ↦ l.set s.1 s.2) {}

/-- Whether both regions of a buffer stay within the limits. Follows `BufferTable.check_limits`
(`buffer/buffer_table:390–398`). -/
def permits (l : Limits) (user kernel : UInt64) : Bool :=
  user ≤ l.maxUser && kernel ≤ l.maxKernel

/-- The values of all settings, in their order. -/
def values (l : Limits) : List UInt64 := Setting.all.map l.get

/-- The limits written field by field. -/
def inspect (l : Limits) : String :=
  recordText "TableConfig" (Setting.all.map fun s ↦ (s.name, wordText (l.get s)))

end Limits

end SessionBuffers
