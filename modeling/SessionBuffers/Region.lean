/-!
# Regions of bytes

A region is one of the two byte stores of a buffer. It is held packed and seen through one view,
`Region.toList`: filling and writing are what `List.replicate` and overwriting a stretch of a list
are.
-/

namespace SessionBuffers

/-- Packed bytes are compared as what they hold. -/
instance bytesDecidableEq : DecidableEq ByteArray := fun a b ↦
  decidable_of_iff (a.data = b.data) ⟨ByteArray.ext, congrArg ByteArray.data⟩

/-- A packed run of bytes. The boxed bytes in `SlabContent` (`buffer/slab:24–25`). -/
structure Region where
  bytes : ByteArray
  deriving DecidableEq, Inhabited

namespace Region

/-- The bytes in order. -/
def toList (r : Region) : List UInt8 := r.bytes.data.toList

/-- The number of bytes. -/
def size (r : Region) : Nat := r.bytes.size

/-- The region without bytes. -/
def empty : Region := ⟨ByteArray.empty⟩

/-- A region is determined by its bytes in order. -/
theorem ext_toList {r q : Region} (h : r.toList = q.toList) : r = q := by
  cases r
  cases q
  exact congrArg mk (ByteArray.ext (Array.toList_inj.mp h))

/-- The size counts the bytes of the view. -/
@[simp] theorem length_toList (r : Region) : r.toList.length = r.size := rfl

@[simp] theorem toList_empty : empty.toList = [] := rfl

@[simp] theorem size_empty : empty.size = 0 := rfl

/-! ### Filling -/

/-- A run of `n` equal bytes, laid down by doubling; `depth` bounds the number of doublings. -/
private def runOf (b : UInt8) : (depth n : Nat) → ByteArray
  | 0, _ => ByteArray.empty
  | depth + 1, n =>
    if n = 0 then ByteArray.empty
    else
      let half := runOf b depth (n / 2)
      if n % 2 = 0 then half ++ half else (half ++ half).push b

private theorem toList_runOf (b : UInt8) (depth n : Nat) (h : n ≤ depth) :
    (runOf b depth n).data.toList = List.replicate n b := by
  induction depth generalizing n with
  | zero => simp [runOf, Nat.le_zero.mp h]
  | succ depth ih =>
    have hh := ih (n / 2) (by omega)
    simp only [runOf]
    split
    · next hz => simp [hz]
    · split
      · next he =>
        simp only [ByteArray.data_append, Array.toList_append, hh, List.replicate_append_replicate]
        congr 1
        omega
      · next he =>
        simp only [ByteArray.data_push, ByteArray.data_append, Array.toList_push,
          Array.toList_append, hh, List.replicate_append_replicate, ← List.replicate_succ']
        congr 1
        omega

/-- The region of `n` copies of one byte. -/
def replicate (n : Nat) (b : UInt8) : Region := ⟨runOf b n n⟩

/-- A filled region is the list of so many copies. -/
@[simp] theorem toList_replicate (n : Nat) (b : UInt8) :
    (replicate n b).toList = List.replicate n b :=
  toList_runOf b n n (Nat.le_refl n)

@[simp] theorem size_replicate (n : Nat) (b : UInt8) : (replicate n b).size = n := by
  rw [← length_toList, toList_replicate, List.length_replicate]

/-- Overwrite every byte. -/
def fill (r : Region) (b : UInt8) : Region := replicate r.size b

@[simp] theorem size_fill (r : Region) (b : UInt8) : (r.fill b).size = r.size :=
  size_replicate r.size b

/-! ### Writing -/

/-- Overwrite a stretch that starts at `offset`; there is no result when it passes the end. -/
def write? (r : Region) (offset : Nat) (patch : ByteArray) : Option Region :=
  if offset + patch.size ≤ r.size then some ⟨patch.copySlice 0 r.bytes offset patch.size⟩
  else none

/-- A stretch that stays inside the region replaces so many bytes and keeps the rest. -/
theorem toList_write? {r q : Region} {offset : Nat} {patch : ByteArray}
    (h : r.write? offset patch = some q) :
    q.toList = r.toList.take offset ++ patch.data.toList ++
      r.toList.drop (offset + patch.size) := by
  unfold write? at h
  split at h
  · next hf =>
    cases h
    change (r.bytes.data.extract 0 offset ++ patch.data.extract 0 (0 + patch.data.size) ++
      r.bytes.data.extract (offset + min patch.data.size (patch.data.size - 0))
        r.bytes.data.size).toList = _
    simp [toList, List.take_of_length_le]
  · cases h

/-- A change to a region that keeps its size. -/
inductive Edit where
  /-- Overwrite a stretch. -/
  | write (offset : Nat) (patch : ByteArray)
  /-- Overwrite every byte. -/
  | fill (b : UInt8)
  deriving DecidableEq

/-- The region after an edit; there is none when the edit passes the end. -/
def edit? (r : Region) : Edit → Option Region
  | .write offset patch => r.write? offset patch
  | .fill b => some (r.fill b)

/-- An edit keeps the size. -/
theorem size_edit? {r q : Region} {e : Edit} (h : r.edit? e = some q) : q.size = r.size := by
  cases e with
  | write offset patch =>
    have hl := congrArg List.length (toList_write? h)
    have hf : offset + patch.size ≤ r.size := by
      simp only [edit?, write?] at h
      split at h
      · assumption
      · cases h
    have hp : patch.data.toList.length = patch.size := rfl
    simp only [List.length_append, List.length_take, List.length_drop, length_toList, hp] at hl
    omega
  | fill b =>
    cases h
    exact size_fill r b

/-! ### What a long region is shown by -/

/-- How many of the first `n` bytes are not zero, added to `count`. -/
private def nonzeroFrom (b : ByteArray) : (n : Nat) → n ≤ b.size → Nat → Nat
  | 0, _, count => count
  | n + 1, h, count =>
    nonzeroFrom b n (Nat.le_of_succ_le h) (if b[n] = 0 then count else count + 1)

/-- The number of bytes that are not zero. -/
def nonzero (r : Region) : Nat := nonzeroFrom r.bytes r.bytes.size (Nat.le_refl _) 0

/-- The first `n` bytes, each times its position from one, added to `sum`. -/
private def weightFrom (b : ByteArray) : (n : Nat) → n ≤ b.size → UInt32 → UInt32
  | 0, _, sum => sum
  | n + 1, h, sum =>
    weightFrom b n (Nat.le_of_succ_le h) (sum + UInt32.ofNat (n + 1) * b[n].toUInt32)

/-- The sum of every byte times its position from one, as a word. -/
def weight (r : Region) : UInt32 := weightFrom r.bytes r.bytes.size (Nat.le_refl _) 0

end Region

end SessionBuffers
